import EnclaveOS.Process.SchedulerRuns

/-!
# WaitChild - which calls of task_waitpid wait for a child

`task_waitpid` looks for a zombie among the children.  It does not look whether there is
a child at all that could become one, so that a task without children goes to sleep for
good; no path returns `ECHILD`.  A task with a child that it waits for is right to sleep:
as long as it does, it has a child that has not exited, and whose exit wakes it.
-/

namespace EnclaveOS

def ECHILD : Int := 10

namespace Scheduler

variable {s s' s'' : Scheduler} {main p q c pcb zombie : Pcb} {ticks birth pid options fuel : Nat}
  {t t' cur : Task} {op : TaskOp} {f : Task → Task} {keep : Pcb → Prop} {l : List Pcb}
  {head : Option Pcb} {code : Int}

/-- How a round of `task_waitpid` ends. -/
inductive WaitOutcome
  | returned (value : Int)
  | asleep
deriving DecidableEq, Repr

/-- `pid` stands for the task, or for any child. -/
def WaitsFor (pid : Nat) (t : Task) : Prop := pid = 0xFFFFFFFF ∨ t.pid = pid

/-- `task_waitpid` as in `taskWaitpid`, with what it returns. -/
def waitRound (s : Scheduler) (pid options : Nat) : Option (WaitOutcome × Scheduler) := do
  let current ← s.task s.currentTask
  match ← s.findZombie pid (taskLimit + 1) current.children with
  | some zombie => do
    let z ← s.task zombie
    let s ← s.collect zombie
    some (.returned (int32 z.pid), s)
  | none =>
    if options &&& WNOHANG ≠ 0 then some (.returned 0, s)
    else do
      let s ← s.set s.currentTask fun t => { t with state := .sleeping, sleepUntil := 0 }
      some (.asleep, { s with phase := .reaping })

theorem waitRound_snd : (s.waitRound pid options).map Prod.snd = s.taskWaitpid pid options := by
  simp only [waitRound, taskWaitpid, Option.bind_eq_bind]
  cases s.task s.currentTask with
  | none => rfl
  | some cur =>
    simp only [Option.bind_some]
    cases s.findZombie pid (taskLimit + 1) cur.children with
    | none => rfl
    | some found =>
      cases found with
      | none =>
        simp only [Option.bind_some]
        split_ifs
        · rfl
        · cases s.set s.currentTask fun t => { t with state := .sleeping, sleepUntil := 0 } <;> rfl
      | some zombie =>
        cases hz : s.task zombie with
        | none => simp [collect, hz]
        | some z => cases hc : s.collect zombie <;> simp [hz, hc]

/-- The current task has a child, perhaps a zombie, that it waits for. -/
def HasChild (s : Scheduler) (pid : Nat) : Prop :=
  ∃ c t, s.task c = some t ∧ t.state ≠ .dead ∧ t.parent = some s.currentTask ∧ WaitsFor pid t

/-- The task at `p` that was born so sleeps. -/
def Asleep (p : Pcb) (birth : Nat) (s : Scheduler) : Prop :=
  ∃ t, s.task p = some t ∧ t.birth = birth ∧ t.state = .sleeping

/-- A task that has not exited has `p` for its parent, and wakes it when it does. -/
def HasActiveChild (p : Pcb) (s : Scheduler) : Prop :=
  ∃ c t, s.task c = some t ∧ t.Active ∧ t.parent = some p

/-- `task_waitpid` never waits for nobody. -/
structure WaitSound (s : Scheduler) (pid options : Nat) : Prop where
  /-- It sleeps only if a child that it waits for has not exited. -/
  asleep : ∀ s₁, s.waitRound pid options = some (.asleep, s₁) →
    ∃ c t, s.task c = some t ∧ t.Active ∧ t.parent = some s.currentTask ∧ WaitsFor pid t
  /-- Without a child that it waits for it fails. -/
  echild : ¬s.HasChild pid → ∃ s₁, s.waitRound pid options = some (.returned (-ECHILD), s₁)
  /-- While it sleeps and others run, there is a task whose exit wakes it. -/
  woken : ∀ t s₁ s', s.task s.currentTask = some t →
    s.waitRound pid options = some (.asleep, s₁) →
    Reach step (fun s' op => s'.Offered op ∧ Asleep s.currentTask t.birth s') s₁ s' →
    Asleep s.currentTask t.birth s' → s'.phase = .running → HasActiveChild s.currentTask s'

/-- What the search finds is a zombie that it was for. -/
theorem findZombie_found (h : s.findZombie pid fuel head = some (some zombie)) :
    ∃ t, s.task zombie = some t ∧ t.state = .zombie ∧ WaitsFor pid t := by
  induction fuel generalizing head with
  | zero => simp [findZombie] at h
  | succ fuel ih =>
    cases head with
    | none => simp [findZombie] at h
    | some child =>
      simp only [findZombie, Option.bind_eq_bind, Option.bind_eq_some_iff] at h
      obtain ⟨t, ht, h⟩ := h
      split_ifs at h with hfound
      · simp only [Option.some.injEq] at h
        exact ⟨t, h ▸ ht, hfound⟩
      · exact ih h

/-- The search passes over a list only if it holds no such zombie. -/
theorem findZombie_none (hl : Threaded (s.link Task.nextSibling) head l)
    (h : s.findZombie pid fuel head = some none) (hq : q ∈ l) (ht : s.task q = some t)
    (hwaits : WaitsFor pid t) : t.state ≠ .zombie := by
  induction l generalizing head fuel with
  | nil => simp at hq
  | cons c l ih =>
    rw [Threaded.cons_iff] at hl
    obtain ⟨rfl, hrest⟩ := hl
    cases fuel with
    | zero => simp [findZombie] at h
    | succ fuel =>
      simp only [findZombie, Option.bind_eq_bind, Option.bind_eq_some_iff] at h
      obtain ⟨u, hu, h⟩ := h
      split_ifs at h with hfound
      · simp at h
      · rcases List.mem_cons.mp hq with rfl | hq
        · rw [ht] at hu
          cases hu
          exact fun hz => hfound ⟨hz, hwaits⟩
        · rw [link_of_task hu] at hrest
          exact ih hrest h hq

/-- The current task and the phase are the same. -/
structure SamePlace (s s' : Scheduler) : Prop where
  currentTask : s'.currentTask = s.currentTask
  phase : s'.phase = s.phase

namespace SamePlace

theorem refl (s : Scheduler) : SamePlace s s := ⟨rfl, rfl⟩

theorem trans (h : SamePlace s s') (h' : SamePlace s' s'') : SamePlace s s'' :=
  ⟨h'.currentTask.trans h.currentTask, h'.phase.trans h.phase⟩

theorem set (h : s.set p f = some s') : SamePlace s s' := by
  obtain ⟨t, -, rfl⟩ := Quiet.exists_of_set h
  exact ⟨rfl, rfl⟩

theorem unlinkChild (h : s.unlinkChild p c = some s') : SamePlace s s' := by
  simp only [Scheduler.unlinkChild, Option.bind_eq_bind, Option.bind_eq_some_iff] at h
  obtain ⟨u, -, t, -, h⟩ := h
  split_ifs at h
  · exact set h
  · rw [Option.bind_eq_some_iff] at h
    obtain ⟨before, -, h⟩ := h
    cases before with
    | none =>
      cases h
      exact refl _
    | some w => exact set h

theorem addTask {stack : Nat} {orphanOnExit monitorChildren : Bool}
    (h : s.addTask pcb stack orphanOnExit monitorChildren = some s') : SamePlace s s' := by
  simp only [Scheduler.addTask, taskQueueAdd, Option.bind_eq_bind, Option.bind_eq_some_iff] at h
  obtain ⟨cur, -, s₁, h₁, cur₁, -, s₂, h₂, after, -, s₃, h₃, h₄⟩ := h
  have hp₁ := set h₁
  have hp : SamePlace s s₁ := ⟨hp₁.currentTask, hp₁.phase⟩
  exact ((hp.trans (set h₂)).trans (set h₃)).trans (set h₄)

theorem respawnInitTask {stack : Nat} (h : s.respawnInitTask pcb stack = some s') :
    SamePlace s s' := by
  simp only [Scheduler.respawnInitTask, taskCreate, Option.bind_eq_bind, Option.bind_eq_some_iff,
    Option.some.injEq] at h
  obtain ⟨s₁, h₁, s₂, h₂, s₃, h₃, s₄, h₄, rfl⟩ := h
  exact ((((addTask h₁).trans (set h₂)).trans (unlinkChild h₃)).trans (set h₄)).trans ⟨rfl, rfl⟩

theorem wakeParent (h : s.wakeParent = some s') : SamePlace s s' := by
  simp only [Scheduler.wakeParent, Option.bind_eq_bind, Option.bind_eq_some_iff] at h
  obtain ⟨cur, -, h⟩ := h
  cases hparent : cur.parent with
  | none =>
    rw [hparent] at h
    cases h
    exact refl _
  | some q =>
    simp only [hparent, Option.bind_eq_some_iff] at h
    obtain ⟨t, -, h⟩ := h
    split_ifs at h
    · exact set h
    · cases h
      exact refl _

end SamePlace

/-- The tasks in a set keep their parents and have not exited if they had not. -/
def Keeps (keep : Pcb → Prop) (s s' : Scheduler) : Prop :=
  ∀ q t, keep q → s.task q = some t →
    ∃ t', s'.task q = some t' ∧ t'.parent = t.parent ∧ (t.Active → t'.Active)

namespace Keeps

theorem refl (s : Scheduler) : Keeps keep s s := fun _ t _ ht => ⟨t, ht, rfl, id⟩

theorem of_task (h : s'.task = s.task) : Keeps keep s s' := by
  intro q t _ ht
  exact ⟨t, by rw [h, ht], rfl, id⟩

theorem trans (h : Keeps keep s s') (h' : Keeps keep s' s'') : Keeps keep s s'' := by
  intro q t hq ht
  obtain ⟨t', ht', hp, ha⟩ := h q t hq ht
  obtain ⟨t'', ht'', hp', ha'⟩ := h' q t' hq ht'
  exact ⟨t'', ht'', hp'.trans hp, ha' ∘ ha⟩

theorem mono {keep' : Pcb → Prop} (h : Keeps keep s s') (hle : ∀ q, keep' q → keep q) :
    Keeps keep' s s' :=
  fun q t hq ht => h q t (hle q hq) ht

theorem set (h : s.set p f = some s')
    (hf : keep p → ∀ t, s.task p = some t → (f t).parent = t.parent ∧ (t.Active → (f t).Active)) :
    Keeps keep s s' := by
  obtain ⟨u, hu, rfl⟩ := Quiet.exists_of_set h
  intro q t hq ht
  by_cases hqp : q = p
  · subst hqp
    rw [hu] at ht
    cases ht
    exact ⟨f u, withTask_task_self, hf hq u hu⟩
  · exact ⟨t, (withTask_task_of_ne hqp).trans ht, rfl, id⟩

theorem setLink (h : s.set p f = some s')
    (hf : ∀ t, (f t).parent = t.parent ∧ (f t).state = t.state) : Keeps keep s s' :=
  set h fun _ t _ => ⟨(hf t).1, fun ha => by simpa [Task.Active, (hf t).2] using ha⟩

theorem joined (h : Joined s s' pcb) : Keeps (· ≠ pcb) s s' := by
  intro q t hq ht
  obtain ⟨t', ht', he⟩ := h.exists_task hq ht
  refine ⟨t', ht', Task.childless_eq he Task.parent fun _ => rfl, fun ha => ?_⟩
  simpa [Task.Active, Task.childless_eq he Task.state fun _ => rfl] using ha

theorem bypass (h : s.bypass c = some s') : Keeps keep s s' := by
  simp only [Scheduler.bypass, Option.bind_eq_bind, Option.bind_eq_some_iff] at h
  obtain ⟨t, -, before, -, s₁, h₁, t₁, -, after, -, h₂⟩ := h
  have hk₁ : Keeps keep s s₁ := setLink h₁ fun _ => ⟨rfl, rfl⟩
  exact hk₁.trans (setLink h₂ fun _ => ⟨rfl, rfl⟩)

theorem pushDead (h : s.pushDead c = some s') : Keeps keep s s' := by
  simp only [Scheduler.pushDead, Option.bind_eq_bind, Option.bind_eq_some_iff,
    Option.some.injEq] at h
  obtain ⟨s₁, h₁, rfl⟩ := h
  have hk₁ : Keeps keep s s₁ := setLink h₁ fun _ => ⟨rfl, rfl⟩
  exact hk₁.trans (of_task rfl)

theorem unlinkChild (h : s.unlinkChild p c = some s') : Keeps keep s s' := by
  simp only [Scheduler.unlinkChild, Option.bind_eq_bind, Option.bind_eq_some_iff] at h
  obtain ⟨u, -, t, -, h⟩ := h
  split_ifs at h
  · exact setLink h fun _ => ⟨rfl, rfl⟩
  · rw [Option.bind_eq_some_iff] at h
    obtain ⟨before, -, h⟩ := h
    cases before with
    | none =>
      cases h
      exact refl _
    | some w => exact setLink h fun _ => ⟨rfl, rfl⟩

/-- Everyone but the zombie. -/
theorem collect (h : s.collect zombie = some s') : Keeps (· ≠ zombie) s s' := by
  simp only [Scheduler.collect, Option.bind_eq_bind, Option.bind_eq_some_iff,
    Option.some.injEq] at h
  obtain ⟨t, -, cur, -, s₁, h₁, s₂, h₂, s₃, h₃, s₄, h₄, rfl⟩ := h
  have hk₂ : Keeps (· ≠ zombie) s₁ s₂ := by
    split_ifs at h₂
    · exact bypass h₂
    · cases h₂
      exact refl s₁
  have hk₃ : Keeps (· ≠ zombie) s₂ s₃ := set h₃ fun hne => absurd rfl hne
  exact ((((unlinkChild h₁).trans hk₂).trans hk₃).trans (pushDead h₄)).trans (of_task rfl)

theorem wakeParent (h : s.wakeParent = some s') : Keeps keep s s' := by
  simp only [Scheduler.wakeParent, Option.bind_eq_bind, Option.bind_eq_some_iff] at h
  obtain ⟨cur, -, h⟩ := h
  cases hparent : cur.parent with
  | none =>
    rw [hparent] at h
    cases h
    exact refl _
  | some q =>
    simp only [hparent, Option.bind_eq_some_iff] at h
    obtain ⟨t, -, h⟩ := h
    split_ifs at h
    · exact set h fun _ _ _ => ⟨rfl, fun _ => by simp [Task.Active]⟩
    · cases h
      exact refl _

theorem dispatch (h : s.dispatch = some s') : Keeps keep s s' := by
  simp only [Scheduler.dispatch, Option.bind_eq_bind, Option.bind_eq_some_iff] at h
  obtain ⟨old, -, h⟩ := h
  cases hnext : old.next with
  | none =>
    rw [hnext] at h
    cases h
    exact of_task rfl
  | some first =>
    simp only [hnext, Option.bind_eq_some_iff] at h
    obtain ⟨new, -, h⟩ := h
    by_cases hsame : new = s.currentTask
    · rw [if_pos hsame] at h
      cases h
      exact of_task rfl
    · rw [if_neg hsame] at h
      simp only [Option.bind_eq_some_iff, Option.some.injEq] at h
      obtain ⟨s₁, h₁, s₂, h₂, rfl⟩ := h
      have hk₁ : Keeps keep s s₁ := by
        split_ifs at h₁
        · exact set h₁ fun _ _ _ => ⟨rfl, fun _ => by simp [Task.Active]⟩
        · cases h₁
          exact refl _
      have hk₂ : Keeps keep s₁ s₂ := set h₂ fun _ _ _ => ⟨rfl, fun _ => by simp [Task.Active]⟩
      exact (hk₁.trans hk₂).trans (of_task rfl)

theorem adoptChild (h : s.adoptChild c = some s') (hc : ¬keep c) : Keeps keep s s' := by
  simp only [Scheduler.adoptChild, Option.bind_eq_bind, Option.bind_eq_some_iff] at h
  obtain ⟨t, -, s₁, h₁, h⟩ := h
  have hk₁ : Keeps keep s s₁ := setLink h₁ fun _ => ⟨rfl, rfl⟩
  split_ifs at h
  · simp only [Option.bind_eq_some_iff, Option.some.injEq] at h
    obtain ⟨i, -, s₂, h₂, s₃, h₃, rfl⟩ := h
    have hk₂ : Keeps keep s₁ s₂ := set h₂ fun hk => absurd hk hc
    have hk₃ : Keeps keep s₂ s₃ := setLink h₃ fun _ => ⟨rfl, rfl⟩
    exact ((hk₁.trans hk₂).trans hk₃).trans (of_task rfl)
  · exact hk₁.trans (set h fun hk => absurd hk hc)

end Keeps

/-- Adoption moves the children of the task that exits. -/
theorem Keeps.adoptChildren (h : TaskInv s) (hcur : s.task s.currentTask = some cur)
    (hactive : cur.Active) (hmain : s.currentTask ≠ s.mainTask) (hpid : cur.pid ≠ 1)
    (hrun : adoptChildren fuel s = some s') (hp : p ≠ s.currentTask) :
    Keeps (s.link Task.parent · = some p) s s' := by
  induction fuel generalizing s cur with
  | zero => cases hrun
  | succ fuel ih =>
    simp only [Scheduler.adoptChildren, hcur, Option.bind_eq_bind, Option.bind_some] at hrun
    cases hfirst : cur.children with
    | none =>
      rw [hfirst] at hrun
      cases hrun
      exact .refl _
    | some c =>
      simp only [hfirst, Option.bind_eq_some_iff] at hrun
      obtain ⟨s₁, hadopt, hrest⟩ := hrun
      obtain ⟨s₂, hadopt', h₁, hframe, ⟨cur₁, hcur₁, he₁, -⟩, -, hparent, -⟩ :=
        adoptChild_spec h hcur hactive hmain hpid hfirst
      rw [hadopt, Option.some.injEq] at hadopt'
      subst hadopt'
      have hchild := (h.family.tree.child_parent ⟨cur, hcur, hactive.2⟩
        (by rw [link_of_task hcur, hfirst])).2
      have hother : ∀ q, s.link Task.parent q = some p → q ≠ c := by
        rintro q hq rfl
        exact hp (Option.some.inj (hq.symm.trans hchild))
      have hstate : cur₁.state = cur.state := Task.childless_eq he₁ Task.state fun _ => rfl
      have hk₁ : Keeps (s.link Task.parent · = some p) s s₁ :=
        .adoptChild hadopt fun hc => hother c hc rfl
      have hk₂ := ih h₁ (hframe.currentTask ▸ hcur₁) (by simpa [Task.Active, hstate] using hactive)
        (by rw [hframe.currentTask, hframe.mainTask]; exact hmain)
        (by rwa [Task.childless_eq he₁ Task.pid fun _ => rfl]) hrest
        (by rwa [hframe.currentTask])
      refine hk₁.trans (hk₂.mono fun q hq => ?_)
      rw [hparent q (hother q hq), hq]

/-- The cascade leaves the children of a task that it leaves. -/
theorem Culled.child_alive {rank : Pcb → Nat} {k : Nat} {heads : Pcb → Option Pcb}
    (h : Culled rank k s s') (hf : FamilyInv (s.link Task.children) s) (hf' : FamilyInv heads s')
    (hp : s'.Alive p) (hheads : heads p = s.link Task.children p) (hc : s.Alive c)
    (hparent : s.link Task.parent c = some p) : s'.Alive c := by
  obtain ⟨l, hl, hmem⟩ := hf.tree.list p (h.alive hp)
  obtain ⟨l', hl', hmem'⟩ := hf'.tree.list p hp
  have hsame : Threaded (s.link Task.nextSibling) (s.link Task.children p) l' := by
    rw [← hheads]
    exact hl'.congr fun a ha => (h.link_eq ((hmem' a).mp ha).1 fun _ => rfl).symm
  rw [hl.unique hsame] at hmem
  exact ((hmem' c).mp ((hmem c).mpr ⟨hc, hparent⟩)).1

theorem Keeps.cleanup (h : TaskInv s) (hcur : s.task s.currentTask = some cur)
    (hlive : cur.state ≠ .dead) (hrun : s.taskCleanupChildrenOnExit s.currentTask = some s')
    (hp : p ≠ s.currentTask) (halive : s'.Alive p) :
    Keeps (s.link Task.parent · = some p) s s' := by
  obtain ⟨rank, s₁, v, -, -, hloop, hculled, -, hf₁, hv, -⟩ :=
    cleanupCurrent_culled h hcur hlive
  simp only [taskCleanupChildrenOnExit, hcur, Option.bind_eq_bind, Option.bind_some,
    hloop] at hrun
  have halive₁ : s₁.Alive p := by
    obtain ⟨u, hu, rfl⟩ := Quiet.exists_of_set hrun
    exact (alive_congr (withTask_task_of_ne hp)).mp halive
  have hk₁ : Keeps (s.link Task.parent · = some p) s s₁ := by
    intro q t hq ht
    have hsame : (s₁.task q).map Task.unlinked = (s.task q).map Task.unlinked := by
      by_cases hd : t.state = .dead
      · rcases hculled.task q with h | ⟨-, u, -, hu, hl, -⟩
        · exact h
        · rw [ht, Option.some.injEq] at hu
          exact absurd (hu ▸ hd) hl
      · exact hculled.of_alive (hculled.child_alive h.family hf₁ halive₁
          (Function.update_of_ne hp ..) ⟨t, ht, hd⟩ hq)
    rw [ht] at hsame
    obtain ⟨t', ht', he⟩ := exists_of_map_unlinked hsame
    refine ⟨t', ht', Task.field_eq he Task.parent fun _ => rfl, fun ha => ?_⟩
    simpa [Task.Active, Task.field_eq he Task.state fun _ => rfl] using ha
  exact hk₁.trans (.setLink hrun fun _ => ⟨rfl, rfl⟩)

theorem Keeps.leaveChildren (h : TaskInv s) (hcur : s.task s.currentTask = some cur)
    (hactive : cur.Active) (hmain : s.currentTask ≠ s.mainTask) (hpid : cur.pid ≠ 1)
    (hrun : s.leaveChildren = some s') (hp : p ≠ s.currentTask) (halive : s'.Alive p) :
    Keeps (s.link Task.parent · = some p) s s' := by
  simp only [Scheduler.leaveChildren, hcur, Option.bind_eq_bind, Option.bind_some,
    if_neg hpid] at hrun
  split_ifs at hrun
  · exact .adoptChildren h hcur hactive hmain hpid hrun hp
  · exact .cleanup h hcur hactive.2 hrun hp halive
  · cases hrun
    exact .refl _

/-- The parent of a task that exits does not sleep any more. -/
theorem wakeParent_wakes (h : s.wakeParent = some s') (hcur : s.task s.currentTask = some cur)
    (hparent : cur.parent = some p) (ht' : s'.task p = some t') : t'.state ≠ .sleeping := by
  simp only [wakeParent, hcur, Option.bind_eq_bind, Option.bind_some, hparent,
    Option.bind_eq_some_iff] at h
  obtain ⟨u, hu, h⟩ := h
  split_ifs at h with hsleeps
  · obtain ⟨u, -, rfl⟩ := Quiet.exists_of_set h
    rw [withTask_task_self, Option.some.injEq] at ht'
    simp [← ht']
  · cases h
    rw [hu, Option.some.injEq] at ht'
    exact ht' ▸ hsleeps

theorem wakeParent_other (h : s.wakeParent = some s') (hcur : s.task s.currentTask = some cur)
    (hparent : cur.parent ≠ some p) : s'.task p = s.task p := by
  simp only [wakeParent, hcur, Option.bind_eq_bind, Option.bind_some] at h
  cases hq : cur.parent with
  | none =>
    rw [hq] at h
    cases h
    rfl
  | some q =>
    simp only [hq, Option.bind_eq_some_iff] at h
    obtain ⟨u, -, h⟩ := h
    split_ifs at h
    · obtain ⟨u, -, rfl⟩ := Quiet.exists_of_set h
      apply withTask_task_of_ne
      rintro rfl
      exact hparent hq
    · cases h
      rfl

/-- A task that sleeps after an exit keeps its children, and the task that exited is none of
them. -/
theorem Keeps.taskExit (h : SchedulerInv s) (hin : s.InSyscall)
    (hpid : ∀ t, s.task s.currentTask = some t → t.pid ≠ 1) (hrun : s.taskExit code = some s')
    (hp : p ≠ s.currentTask) (ht' : s'.task p = some t') (hsleeps : t'.state = .sleeping) :
    Keeps (s.link Task.parent · = some p) s s' ∧
      s.link Task.parent s.currentTask ≠ some p := by
  obtain ⟨cur, hcur, hrunning⟩ := h.running hin.1
  have hactive : cur.Active := by simp [Task.Active, hrunning]
  obtain ⟨s₁, hleave, -, hframe, cur₁, hcur₁, he, -⟩ :=
    leaveChildren_spec h.tasks hcur hactive hin.2.1 (hpid cur hcur)
  rw [← hframe.currentTask] at hcur₁ hp
  let z : Task := { cur₁ with state := .zombie, exitCode := code }
  simp only [Scheduler.taskExit, hleave, Option.bind_eq_bind, Option.bind_some,
    set_of_task hcur₁, Option.bind_eq_some_iff, Option.some.injEq] at hrun
  obtain ⟨z', hz', s₃, hwake, s₄, hbury, rfl⟩ := hrun
  have hz : (s₁.withTask s₁.currentTask z).task s₁.currentTask = some z := withTask_task_self
  have hpid₁ : cur₁.pid ≠ 1 := by
    rw [Task.childless_eq he Task.pid fun _ => rfl]
    exact hpid cur hcur
  -- a task with another pid than Init's stays a zombie
  have hplace : s₃.currentTask = s₁.currentTask := (SamePlace.wakeParent hwake).currentTask
  have hquiet : Quiet (fun _ => True) _ s₃ := .wakeParent hwake fun _ _ _ _ => trivial
  simp only [buryInit, Option.bind_eq_bind, Option.bind_eq_some_iff] at hbury
  obtain ⟨z₃, hz₃, hbury⟩ := hbury
  obtain ⟨z₂, hz₂, -, hpid₃, -⟩ := hquiet.task _ z₃ hz₃
  rw [hplace] at hz₂
  obtain rfl : z = z₂ := Option.some.inj (hz.symm.trans hz₂)
  rw [if_neg (by rw [hpid₃]; exact hpid₁), Option.some.injEq] at hbury
  subst hbury
  have hparent : z.parent ≠ some p := fun e => wakeParent_wakes hwake hz e ht' hsleeps
  have hsame := (wakeParent_other hwake hz hparent).symm.trans ht'
  have halive : s₁.Alive p :=
    ⟨t', (withTask_task_of_ne hp).symm.trans hsame, by simp [hsleeps]⟩
  have hother : s.link Task.parent s.currentTask ≠ some p := by
    rw [link_of_task hcur]
    rwa [← Task.childless_eq he Task.parent fun _ => rfl]
  refine ⟨?_, hother⟩
  have hk₁ : Keeps (s.link Task.parent · = some p) s s₁ :=
    .leaveChildren h.tasks hcur hactive hin.2.1 (hpid cur hcur) hleave
      (by rwa [hframe.currentTask] at hp) halive
  have hk₂ : Keeps (s.link Task.parent · = some p) s₁ (s₁.withTask s₁.currentTask z) := by
    apply Keeps.set (set_of_task hcur₁ fun t => { t with state := .zombie, exitCode := code })
    intro hk
    rw [hframe.currentTask] at hk
    exact absurd hk hother
  have hk₃ : Keeps (s.link Task.parent · = some p) _ s₃ := .wakeParent hwake
  exact ((hk₁.trans hk₂).trans hk₃).trans (.of_task rfl)

theorem HasActiveChild.keeps (h : HasActiveChild p s) (hk : Keeps keep s s')
    (hkeep : ∀ c t, s.task c = some t → t.Active → t.parent = some p → keep c) :
    HasActiveChild p s' := by
  obtain ⟨c, t, ht, ha, hp⟩ := h
  obtain ⟨t', ht', hparent, hactive⟩ := hk c t (hkeep c t ht ha hp) ht
  exact ⟨c, t', ht', hactive ha, hparent.trans hp⟩

theorem Keeps.addTask {stack : Nat} {orphanOnExit monitorChildren : Bool} (h : QueueInv s)
    (hfree : s.task pcb = none)
    (hrun : s.addTask pcb stack orphanOnExit monitorChildren = some s') : Keeps (· ≠ pcb) s s' := by
  obtain ⟨cur, hcur, -⟩ := h.current
  obtain ⟨s₁, n, hrun₁, ha, -⟩ := addTask_spec stack orphanOnExit monitorChildren h hcur hfree
  rw [hrun] at hrun₁
  cases hrun₁
  exact .joined ha.joined

/-- The children of a task that sleeps live until an exit wakes it. -/
theorem HasActiveChild.step (hc : HasActiveChild p s) (h : SchedulerInv s) (hop : s.Offered op)
    (hspares : s.SparesInit op) (hstep : s.step op = some s') (hasleep : Asleep p birth s)
    (hasleep' : Asleep p birth s') : HasActiveChild p s' := by
  obtain ⟨t₀, ht₀, -, hsleeps⟩ := hasleep
  obtain ⟨t', ht', -, hsleeps'⟩ := hasleep'
  -- the task that runs is another one
  have hother : s.phase = .running → p ≠ s.currentTask := by
    rintro hphase rfl
    obtain ⟨cur, hcur, hrunning⟩ := h.running hphase
    rw [ht₀, Option.some.injEq] at hcur
    simp [hcur, hrunning] at hsleeps
  have hnew : ∀ {pcb}, s.task pcb = none → ∀ c t, s.task c = some t → t.Active →
      t.parent = some p → c ≠ pcb := by
    rintro pcb hfree c t ht - - rfl
    simp [hfree] at ht
  have hexit : ∀ {code}, s.InSyscall → (∀ t, s.task s.currentTask = some t → t.pid ≠ 1) →
      s.taskExit code = some s' → HasActiveChild p s' := by
    intro code hin hpid hrun
    have hk := Keeps.taskExit h hin hpid hrun (hother hin.1) ht' hsleeps'
    exact hc.keeps hk.1 fun c t ht _ hp => by rw [link_of_task ht, hp]
  cases op with
  | startInit pcb stack =>
    simp only [Scheduler.step, Scheduler.startInit, Scheduler.taskCreate, Option.bind_eq_bind,
      Option.bind_eq_some_iff, Option.some.injEq] at hstep
    obtain ⟨s₁, h₁, s₂, h₂, rfl⟩ := hstep
    have hfree := hop.2.2.2.2.1
    have hk₁ : Keeps (· ≠ pcb) s s₁ := .addTask h.tasks.queue hfree h₁
    have hk₂ : Keeps (· ≠ pcb) s₁ s₂ := .set h₂ fun hne => absurd rfl hne
    exact hc.keeps ((hk₁.trans hk₂).trans (.of_task rfl)) (hnew hfree)
  | taskCreate memory =>
    cases memory with
    | noMemory =>
      cases hstep
      exact hc
    | noSpace =>
      cases hstep
      exact hc
    | ok pcb stack => exact hc.keeps (.addTask h.tasks.queue hop.2.2.2.1 hstep) (hnew hop.2.2.2.1)
  | taskFork memory =>
    cases memory with
    | noMemory =>
      cases hstep
      exact hc
    | noSpace =>
      cases hstep
      exact hc
    | ok pcb stack =>
      simp only [Scheduler.step, Scheduler.taskFork, Option.bind_eq_bind,
        Option.bind_eq_some_iff] at hstep
      obtain ⟨cur, -, hstep⟩ := hstep
      exact hc.keeps (.addTask h.tasks.queue hop.2.2.1 hstep) (hnew hop.2.2.1)
  | taskExit code => exact hexit hop hspares hstep
  | taskKillCurrent =>
    simp only [Scheduler.step, Scheduler.taskKillCurrent, Option.bind_eq_bind,
      Option.bind_eq_some_iff] at hstep
    obtain ⟨cur, -, hstep⟩ := hstep
    split_ifs at hstep
    · cases hstep
      exact hc
    · exact hexit hop hspares hstep
  | taskWaitpid pid options =>
    simp only [Scheduler.step, Scheduler.taskWaitpid, Option.bind_eq_bind,
      Option.bind_eq_some_iff] at hstep
    obtain ⟨cur, hcur, found, hfind, hstep⟩ := hstep
    cases found with
    | some z =>
      obtain ⟨u, hu, hz, -⟩ := findZombie_found hfind
      apply hc.keeps (.collect hstep)
      rintro c t ht ha - rfl
      rw [hu, Option.some.injEq] at ht
      exact ha.1 (ht ▸ hz)
    | none =>
      dsimp only at hstep
      split_ifs at hstep
      · cases hstep
        exact hc
      · simp only [Option.bind_eq_some_iff, Option.some.injEq] at hstep
        obtain ⟨s₁, h₁, rfl⟩ := hstep
        have hk₁ : Keeps (fun _ => True) s s₁ :=
          .set h₁ fun _ _ _ => ⟨rfl, fun _ => by simp [Task.Active]⟩
        exact hc.keeps (hk₁.trans (.of_task rfl)) fun _ _ _ _ _ => trivial
  | sysSleep ms =>
    simp only [Scheduler.step, Scheduler.sysSleep] at hstep
    split_ifs at hstep
    · cases hstep
      exact hc
    · simp only [Option.bind_eq_bind, Option.bind_eq_some_iff, Option.some.injEq] at hstep
      obtain ⟨s₁, h₁, rfl⟩ := hstep
      have hk₁ : Keeps (fun _ => True) s s₁ :=
        .set h₁ fun _ _ _ => ⟨rfl, fun _ => by simp [Task.Active]⟩
      exact hc.keeps (hk₁.trans (.of_task rfl)) fun _ _ _ _ _ => trivial
  | taskYield =>
    cases hstep
    exact hc
  | timerTick =>
    obtain ⟨s₁, hrun, -, -, htask⟩ := timerTick_spec h (hop.resolve_right h.busy)
    have hstep' : s.timerTick = some s' := hstep
    rw [hstep'] at hrun
    cases hrun
    obtain ⟨c, t, ht, ha, hp⟩ := hc
    have hs := t.wake_stirs (wrap32 (s.tickCount + 1))
    refine ⟨c, _, by rw [htask, ht, Option.map_some], ?_,
      (hs.field Task.parent fun _ => rfl).trans hp⟩
    exact ⟨fun hz => ha.1 (hs.zombie_iff.mp hz), fun hd => ha.2 (hs.dead_iff.mp hd)⟩
  | reap respawn =>
    obtain ⟨d, hd⟩ := Option.ne_none_iff_exists'.mp hop.2.1
    obtain ⟨s₁, hrun, -, ⟨u, hu, hdead⟩, -, -, hkept⟩ := reap_spec h hop.1 hd hop.2.2
    have hstep' : s.reap respawn = some s' := hstep
    rw [hstep'] at hrun
    cases hrun
    obtain ⟨c, t, ht, ha, hp⟩ := hc
    obtain ⟨v, hv, he⟩ := hkept c t (by
      rintro rfl
      rw [hu, Option.some.injEq] at ht
      exact ha.2 (ht ▸ hdead)) ht
    refine ⟨c, v, hv, ?_, (Task.childless_eq he Task.parent fun _ => rfl).trans hp⟩
    simpa [Task.Active, Task.childless_eq he Task.state fun _ => rfl] using ha
  | dispatch =>
    have hk : Keeps (fun _ => True) s s' := .dispatch hstep
    exact hc.keeps hk fun _ _ _ _ _ => trivial

/-- No task will run again: the machine has stopped, or the reaper has the current task, which
the switch needs. -/
def Doomed (s : Scheduler) : Prop :=
  s.phase = .halted ∨ s.phase = .reaping ∧
    (s.deadTasksHead = some s.currentTask ∨ s.task s.currentTask = none)

theorem Doomed.not_running (h : s.Doomed) : s.phase ≠ .running := by
  rcases h with h | ⟨h, -⟩ <;> simp [h]

/-- A round of the reaper gives back the current task, or stops the machine. -/
theorem Doomed.reap (hphase : s.phase = .reaping)
    (hlost : s.deadTasksHead = some s.currentTask ∨ s.task s.currentTask = none)
    {respawn : Option (Pcb × Nat)} (hrun : s.reap respawn = some s') : s'.Doomed := by
  simp only [Scheduler.reap, Option.bind_eq_bind, Option.bind_eq_some_iff] at hrun
  obtain ⟨dead, hhead, t, ht, hrun⟩ := hrun
  have hrelease : ∀ {s₁ : Scheduler}, s₁.currentTask = s.currentTask → s₁.phase = .reaping →
      (dead = s.currentTask ∨ s₁.task s.currentTask = none) → s₁.release dead = some s' →
        s'.Doomed := by
    intro s₁ hcurrent hphase₁ hgone hfree
    simp only [release, Option.bind_eq_bind, Option.bind_eq_some_iff, Option.some.injEq] at hfree
    obtain ⟨u, -, rfl⟩ := hfree
    have hnone : Function.update s₁.task dead none s.currentTask = none := by
      rw [Function.update_apply]
      split_ifs with he
      · rfl
      · exact hgone.resolve_left fun e => he e.symm
    refine Or.inr ⟨?_, Or.inr ?_⟩
    · split_ifs <;> exact hphase₁
    · split_ifs <;> simpa only [note, hcurrent] using hnone
  have hgone : dead = s.currentTask ∨ s.task s.currentTask = none := by
    rw [hhead, Option.some.injEq] at hlost
    exact hlost
  split_ifs at hrun
  · cases respawn with
    | none =>
      cases hrun
      exact Or.inl rfl
    | some memory =>
      simp only [Option.bind_eq_some_iff] at hrun
      obtain ⟨s₁, hrespawn, hfree⟩ := hrun
      have hplace := SamePlace.respawnInitTask hrespawn
      apply hrelease hplace.currentTask (hplace.phase.trans hphase) _ hfree
      refine Or.inl (hgone.resolve_right fun hnone => ?_)
      -- the new task would be a child of the current one
      simp only [Scheduler.respawnInitTask, taskCreate, Scheduler.addTask, Option.bind_eq_bind,
        hnone] at hrespawn
      cases hrespawn
  · exact @hrelease { s with deadTasksHead := t.reaperNext, reaped := some dead } rfl hphase
      hgone hrun

theorem Doomed.step (h : s.Doomed) (hop : s.Offered op) (hstep : s.step op = some s') :
    s'.Doomed := by
  have hrunning := h.not_running
  cases op with
  | startInit pcb stack => exact absurd hop.1 hrunning
  | taskCreate memory => exact absurd hop.1 hrunning
  | taskFork memory => exact absurd hop.1.1 hrunning
  | taskExit code => exact absurd hop.1 hrunning
  | taskKillCurrent => exact absurd hop.1 hrunning
  | taskWaitpid pid options => exact absurd hop.1 hrunning
  | sysSleep ms => exact absurd hop.1.1 hrunning
  | taskYield => exact absurd hop.1 hrunning
  | timerTick => rcases h with h | ⟨h, -⟩ <;> rcases hop with hop | hop <;> simp [h] at hop
  | reap respawn =>
    rcases h with h | ⟨hphase, hlost⟩
    · simp [hop.1] at h
    · exact .reap hphase hlost hstep
  | dispatch =>
    rcases h with h | ⟨-, hlost⟩
    · simp [hop.1] at h
    · rw [hop.2] at hlost
      have hnone := hlost.resolve_left (by simp)
      simp [Scheduler.step, Scheduler.dispatch, hnone] at hstep

/-- The exit of a task with pid 1 leaves it at the head of the list of the reaper. -/
theorem Doomed.exit (h : SchedulerInv s) (hcur : s.task s.currentTask = some cur)
    (hpid : cur.pid = 1) (hlive : cur.state ≠ .dead) (hrun : s.taskExit code = some s') :
    s'.Doomed := by
  simp only [Scheduler.taskExit, Option.bind_eq_bind, Option.bind_eq_some_iff,
    Option.some.injEq] at hrun
  obtain ⟨s₁, hleave, s₂, hset, z, hz, s₃, hwake, s₄, hbury, rfl⟩ := hrun
  have hquiet₁ : Quiet (fun _ => True) s s₁ := .leaveChildren hleave
  simp only [Scheduler.leaveChildren, hcur, Option.bind_eq_bind, Option.bind_some,
    if_pos hpid] at hleave
  obtain ⟨rank, s₀, v, -, -, hloop, hculled, -, -, -, -⟩ :=
    cleanupCurrent_culled h.tasks hcur hlive
  simp only [taskCleanupChildrenOnExit, hcur, Option.bind_eq_bind, Option.bind_some,
    hloop] at hleave
  have hcurrent₁ : s₁.currentTask = s.currentTask :=
    (SamePlace.set hleave).currentTask.trans hculled.currentTask
  have hcurrent₃ : s₃.currentTask = s.currentTask :=
    ((SamePlace.wakeParent hwake).currentTask.trans (SamePlace.set hset).currentTask).trans
      hcurrent₁
  have hquiet₂ : Quiet (fun _ => True) s₁ s₂ :=
    .set hset (fun _ => rfl) (fun _ => rfl) fun _ _ => Or.inl trivial
  have hquiet₃ : Quiet (fun _ => True) _ s₃ := .wakeParent hwake fun _ _ _ _ => trivial
  simp only [buryInit, Option.bind_eq_bind, Option.bind_eq_some_iff] at hbury
  obtain ⟨z₃, hz₃, hbury⟩ := hbury
  have hpid₃ : z₃.pid = 1 := by
    obtain ⟨z₂, hz₂, -, hp₃, -⟩ := hquiet₃.task _ z₃ hz₃
    obtain ⟨z₁, hz₁, -, hp₂, -⟩ := hquiet₂.task _ z₂ hz₂
    obtain ⟨z₀, hz₀, -, hp₁, -⟩ := hquiet₁.task _ z₁ hz₁
    rw [hcurrent₃, hcur, Option.some.injEq] at hz₀
    rw [hp₃, hp₂, hp₁, ← hz₀, hpid]
  rw [if_pos hpid₃] at hbury
  simp only [Option.bind_eq_some_iff, Scheduler.pushDead, Option.bind_eq_bind,
    Option.some.injEq] at hbury
  obtain ⟨s₅, h₅, s₆, h₆, s₇, h₇, rfl⟩ := hbury
  exact Or.inr ⟨rfl, Or.inl (congrArg some (SamePlace.set h₇).currentTask.symm)⟩

/-- Every step keeps the invariants, or ends the run of the tasks. -/
theorem SchedulerInv.step_or_doomed (h : SchedulerInv s) (hop : s.Offered op)
    (hstep : s.step op = some s') : s'.Doomed ∨ s.SparesInit op ∧ SchedulerInv s' := by
  have hexit : ∀ {code}, s.InSyscall → s.taskExit code = some s' →
      s'.Doomed ∨ ∀ t, s.task s.currentTask = some t → t.pid ≠ 1 := by
    intro code hin hrun
    obtain ⟨cur, hcur, hrunning⟩ := h.running hin.1
    by_cases hpid : cur.pid = 1
    · exact Or.inl (.exit h hcur hpid (by simp [hrunning]) hrun)
    · refine Or.inr fun t ht => ?_
      rw [hcur, Option.some.injEq] at ht
      exact ht ▸ hpid
  have hcases : s'.Doomed ∨ s.SparesInit op := by
    cases op with
    | taskExit code => exact hexit hop hstep
    | taskKillCurrent =>
      simp only [Scheduler.step, Scheduler.taskKillCurrent, Option.bind_eq_bind,
        Option.bind_eq_some_iff] at hstep
      obtain ⟨cur, -, hstep⟩ := hstep
      split_ifs at hstep
      · cases hstep
        exact Or.inl (Or.inl rfl)
      · exact hexit hop hstep
    | _ => exact Or.inr trivial
  refine hcases.imp_right fun hspares => ⟨hspares, ?_⟩
  obtain ⟨s₁, hrun, h₁⟩ := h.step hop hspares
  rw [hstep, Option.some.injEq] at hrun
  exact hrun ▸ h₁

/-- As long as a task runs, Init has not exited. -/
theorem SchedulerInv.of_reach (hmain : main < taskLimit)
    (h : Reach Scheduler.step Offered (Scheduler.boot main ticks) s) :
    s.Doomed ∨ SchedulerInv s := by
  apply Reach.invariant (P := fun s => s.Doomed ∨ SchedulerInv s) _ _ h
  · exact Or.inr (.boot hmain ticks)
  · rintro s op s' (hs | hs) hop hstep
    · exact Or.inl (hs.step hop hstep)
    · exact (hs.step_or_doomed hop hstep).imp_right And.right

/-- A round that goes to sleep has found no zombie. -/
theorem asleep_of_waitRound (h : s.waitRound pid options = some (.asleep, s')) :
    ∃ cur, s.task s.currentTask = some cur ∧
      s.findZombie pid (taskLimit + 1) cur.children = some none ∧
      s' = { s.withTask s.currentTask { cur with state := .sleeping, sleepUntil := 0 } with
        phase := .reaping } := by
  simp only [waitRound, Option.bind_eq_bind, Option.bind_eq_some_iff] at h
  obtain ⟨cur, hcur, found, hfind, h⟩ := h
  refine ⟨cur, hcur, ?_⟩
  cases found with
  | some z =>
    simp only [Option.bind_eq_some_iff, Option.some.injEq, Prod.mk.injEq] at h
    obtain ⟨z, -, s₁, -, hreturned, -⟩ := h
    cases hreturned
  | none =>
    dsimp only at h
    split_ifs at h
    · simp at h
    · rw [set_of_task hcur, Option.bind_some, Option.some.injEq, Prod.mk.injEq] at h
      exact ⟨hfind, h.2.symm⟩

/-- A round comes to an end, and one that returns an error has found no zombie. -/
theorem SchedulerInv.waitRound (h : SchedulerInv s) (hin : s.InSyscall) (pid options : Nat) :
    ∃ outcome s', s.waitRound pid options = some (outcome, s') ∧ SchedulerInv s' := by
  obtain ⟨s', hrun, h'⟩ := taskWaitpid_spec h hin.1 hin.2.1 pid options
  rw [← waitRound_snd, Option.map_eq_some_iff] at hrun
  obtain ⟨⟨outcome, s₁⟩, hrun, rfl⟩ := hrun
  exact ⟨outcome, s₁, hrun, h'⟩

/-- A child that is waited for, and no zombie found: the child has not exited. -/
theorem HasChild.active (hc : s.HasChild pid) (h : SchedulerInv s)
    (hcur : s.task s.currentTask = some cur) (hlive : cur.state ≠ .dead)
    (hfind : s.findZombie pid (taskLimit + 1) cur.children = some none) :
    ∃ c t, s.task c = some t ∧ t.Active ∧ t.parent = some s.currentTask ∧ WaitsFor pid t := by
  obtain ⟨c, t, ht, hl, hp, hwaits⟩ := hc
  obtain ⟨l, hchain, hmem⟩ := h.tasks.family.tree.list s.currentTask ⟨cur, hcur, hlive⟩
  rw [link_of_task hcur] at hchain
  have hin : c ∈ l := (hmem c).mpr ⟨⟨t, ht, hl⟩, by rw [link_of_task ht, hp]⟩
  exact ⟨c, t, ht, ⟨findZombie_none hchain hfind hin ht hwaits, hl⟩, hp, hwaits⟩

/-- In every state in which a task can call it, `task_waitpid` waits for somebody exactly when
the task has a child that it waits for. -/
theorem waitpid_sound_iff (hmain : main < taskLimit)
    (h : Reach step Offered (boot main ticks) s) (hin : s.InSyscall) :
    s.WaitSound pid options ↔ s.HasChild pid := by
  have hinv := (SchedulerInv.of_reach hmain h).resolve_left fun hd => hd.not_running hin.1
  obtain ⟨cur, hcur, hrunning⟩ := hinv.running hin.1
  have hlive : cur.state ≠ .dead := by simp [hrunning]
  constructor
  · -- no path of the code returns the error
    intro hsound
    by_contra hnone
    obtain ⟨s₁, hround⟩ := hsound.echild hnone
    simp only [Scheduler.waitRound, hcur, Option.bind_eq_bind, Option.bind_some,
      Option.bind_eq_some_iff] at hround
    obtain ⟨found, hfind, hround⟩ := hround
    cases found with
    | some z =>
      obtain ⟨t, ht, hz, hwaits⟩ := findZombie_found hfind
      obtain ⟨found, hrun, hfound⟩ := hinv.tasks.findZombie_child hcur hlive pid
      rw [hfind, Option.some.injEq] at hrun
      obtain ⟨t', ht', -, hparent⟩ := hfound z hrun.symm
      obtain rfl : t = t' := Option.some.inj (ht.symm.trans ht')
      exact hnone ⟨z, t, ht, by simp [hz], hparent, hwaits⟩
    | none =>
      dsimp only at hround
      split_ifs at hround
      · simp [ECHILD] at hround
      · simp [set_of_task hcur] at hround
  · intro hchild
    constructor
    case asleep =>
      intro s₁ hround
      obtain ⟨cur', hcur', hfind, -⟩ := asleep_of_waitRound hround
      rw [hcur, Option.some.injEq] at hcur'
      subst hcur'
      exact hchild.active hinv hcur hlive hfind
    case echild => exact fun hnone => absurd hchild hnone
    case woken =>
      intro t s₁ s' ht hround hrun hasleep hphase
      obtain ⟨outcome, s₂, hround₂, hinv₁⟩ := hinv.waitRound hin pid options
      rw [hround] at hround₂
      cases hround₂
      obtain ⟨cur', hcur', hfind, he⟩ := asleep_of_waitRound hround
      rw [hcur, Option.some.injEq] at hcur'
      subst hcur'
      have hstart : HasActiveChild s.currentTask s₁ := by
        obtain ⟨c, u, hu, hactive, hparent, -⟩ := hchild.active hinv hcur hlive hfind
        have hchild₀ : HasActiveChild s.currentTask s := ⟨c, u, hu, hactive, hparent⟩
        have hk : Keeps (fun _ => True) s
            (s.withTask s.currentTask { cur with state := .sleeping, sleepUntil := 0 }) :=
          .set (set_of_task hcur fun t => { t with state := .sleeping, sleepUntil := 0 })
            fun _ _ _ => ⟨rfl, fun _ => by simp [Task.Active]⟩
        rw [he]
        exact hchild₀.keeps (hk.trans (.of_task rfl)) fun _ _ _ _ _ => trivial
      have hend : s'.Doomed ∨ SchedulerInv s' ∧
          (Asleep s.currentTask t.birth s' → HasActiveChild s.currentTask s') := by
        apply Reach.invariant (P := fun s' => s'.Doomed ∨ SchedulerInv s' ∧
          (Asleep s.currentTask t.birth s' → HasActiveChild s.currentTask s')) _ _ hrun
        · exact Or.inr ⟨hinv₁, fun _ => hstart⟩
        · rintro s₂ op s₃ (hs | ⟨hs, hkept⟩) ⟨hop, hsleeps⟩ hstep
          · exact Or.inl (hs.step hop hstep)
          · refine (hs.step_or_doomed hop hstep).imp_right ?_
            rintro ⟨hspares, hs'⟩
            exact ⟨hs', (hkept hsleeps).step hs hop hspares hstep hsleeps⟩
      exact (hend.resolve_left fun hd => hd.not_running hphase).2 hasleep

/-- Init forks. -/
def initForked : Scheduler :=
  (initRunning.step (.taskFork (.ok 2 8192))).get (by decide +kernel)

theorem initForked_run : Reach step Offered (boot 0 9) initForked := by
  have hrun : Runs (fun _ _ => True) 0 9 initRunning :=
    initRunning_run fun _ => ⟨trivial, trivial, trivial⟩
  refine .next (i := TaskOp.taskFork (.ok 2 8192)) (hrun.mono fun _ _ h => h.1)
    ⟨initRunning_inSyscall, ?_⟩ (Option.some_get _).symm
  exact fresh_of_forall (by decide) (by decide +kernel) (by decide)
    (fun p hp => initRunning_memory hp) (by decide +kernel)

/-- Init waits for its child. -/
theorem waitpid_sound_forked : initForked.WaitSound 0xFFFFFFFF 0 := by
  have hchild : (initForked.task 2).map (fun t => (t.state, t.parent)) =
      some (.ready, some initForked.currentTask) := by decide +kernel
  obtain ⟨t, ht, he⟩ := Option.map_eq_some_iff.mp hchild
  rw [Prod.mk.injEq] at he
  exact (waitpid_sound_iff (by decide) initForked_run (inSyscall_of_running (by decide +kernel)
    (by decide +kernel) (by decide +kernel))).mpr ⟨2, t, ht, by simp [he.1], he.2, Or.inl rfl⟩

/-- Init waits for a child without having one, and sleeps for good. -/
theorem waitpid_without_child : ∃ s, Reach step Offered (boot 0 9) s ∧ s.InSyscall ∧
    ¬s.WaitSound 0xFFFFFFFF 0 := by
  have hrun : Runs SparesInit 0 9 initRunning :=
    initRunning_run fun _ => ⟨trivial, trivial, trivial⟩
  refine ⟨initRunning, hrun.mono fun _ _ h => h.1, initRunning_inSyscall, fun hsound => ?_⟩
  have hasleep : (initRunning.waitRound 0xFFFFFFFF 0).map Prod.fst = some .asleep := by
    decide +kernel
  obtain ⟨⟨outcome, s₁⟩, hround, rfl⟩ := Option.map_eq_some_iff.mp hasleep
  obtain ⟨c, t, ht, hactive, hparent, -⟩ := hsound.asleep s₁ hround
  have hinv := SchedulerInv.of_run (by decide) hrun
  have hnone : initRunning.link Task.children initRunning.currentTask = none := by decide +kernel
  exact hinv.tasks.family.tree.no_child hinv.tasks.queue.current hnone ⟨t, ht, hactive.2⟩
    (by rw [link_of_task ht, hparent])

end Scheduler
end EnclaveOS
