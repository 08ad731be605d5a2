import EnclaveOS.Process.SchedulerSteps

/-!
# TaskBirth - tasks that are made, started again and given back

A new task joins the ring and the tree.  The reaper takes dead tasks out of memory; when
one of them had pid 1 it starts Init again, as a task without parent.
-/

namespace EnclaveOS

/-- A task without the pointers that change when others join. -/
def Task.childless (t : Task) : Task := { t with next := none, prev := none, children := none }

theorem Task.childless_eq {β : Type*} {t t' : Task} (h : t'.childless = t.childless)
    (g : Task → β) (hg : ∀ t, g (Task.childless t) = g t) : g t' = g t := by
  rw [← hg t', h, hg]

theorem Task.Ages.of_childless {t t' : Task} (h : t'.childless = t.childless) : t.Ages t' := by
  refine ⟨Task.childless_eq h Task.traits fun _ => rfl, ?_⟩
  have hstate := Task.childless_eq h Task.state fun _ => rfl
  by_cases hd : t.state = .dead
  · exact Or.inl (hstate.trans hd)
  · exact Or.inr ⟨hd, Task.childless_eq h Task.parent fun _ => rfl,
      Task.childless_eq h Task.exitCode fun _ => rfl, by rw [hstate]⟩

namespace Scheduler

variable {s s' s₁ : Scheduler} {p q pcb : Pcb} {t t' n cur : Task} {stack : Nat}
  {orphanOnExit monitorChildren : Bool}

/-- A task in memory is as before but for the pointers that change when others join. -/
def Joined (s s' : Scheduler) (pcb : Pcb) : Prop :=
  ∀ q, q ≠ pcb → (s'.task q).map Task.childless = (s.task q).map Task.childless

namespace Joined

variable (h : Joined s s' pcb)

include h

theorem exists_task (hq : q ≠ pcb) (ht : s.task q = some t) :
    ∃ t', s'.task q = some t' ∧ t'.childless = t.childless := by
  have := h q hq
  rw [ht] at this
  simpa using this

theorem exists_task' (hq : q ≠ pcb) (ht' : s'.task q = some t') :
    ∃ t, s.task q = some t ∧ t'.childless = t.childless := by
  have := (h q hq).symm
  rw [ht'] at this
  obtain ⟨t, ht, he⟩ := Option.map_eq_some_iff.mp this
  exact ⟨t, ht, he.symm⟩

theorem none_of (hq : q ≠ pcb) (ht : s.task q = none) : s'.task q = none := by
  have := h q hq
  rw [ht, Option.map_none, Option.map_eq_none_iff] at this
  exact this

theorem link_eq {g : Task → Option Pcb} (hq : q ≠ pcb) (hg : ∀ t, g (Task.childless t) = g t) :
    s'.link g q = s.link g q := by
  cases ht : s.task q with
  | none => simp [link, ht, h.none_of hq ht]
  | some t =>
    obtain ⟨t', ht', he⟩ := h.exists_task hq ht
    rw [link_of_task ht, link_of_task ht', Task.childless_eq he g hg]

theorem state (hq : q ≠ pcb) : (s'.task q).map Task.state = (s.task q).map Task.state := by
  have hmap := congrArg (Option.map Task.state) (h q hq)
  rw [Option.map_map, Option.map_map] at hmap
  exact hmap

theorem alive (hq : q ≠ pcb) : s'.Alive q ↔ s.Alive q := alive_of_state (h.state hq)

theorem dead (hq : q ≠ pcb) : s'.Dead q ↔ s.Dead q := dead_of_state (h.state hq)

end Joined

/-- What `addTask` does: the new task is queued and heads the children of the current
one. -/
structure Added (s s' : Scheduler) (pcb : Pcb) (n cur : Task)
    (orphanOnExit monitorChildren : Bool) : Prop where
  queue : QueueInv s'
  new : s'.task pcb = some n
  joined : Joined s s' pcb
  childrenCurrent : s'.link Task.children s.currentTask = some pcb
  children : ∀ q, q ≠ pcb → q ≠ s.currentTask →
    s'.link Task.children q = s.link Task.children q
  frame : { s' with task := s.task } = { s with
    nextPid := s.nextPid + 1
    log := .created cur.birth s.nextPid pcb n.kernelStackVirt :: s.log }
  pid : n.pid = wrap32 s.nextPid
  state : n.state = .ready
  parent : n.parent = some s.currentTask
  noChildren : n.children = none
  nextSibling : n.nextSibling = cur.children
  birth : n.birth = s.nextPid
  flags : n.orphanOnExit = orphanOnExit ∧ n.monitorChildren = monitorChildren

theorem addTask_spec (stack : Nat) (orphanOnExit monitorChildren : Bool) (h : QueueInv s) (hcur : s.task s.currentTask = some cur)
    (hfree : s.task pcb = none) :
    ∃ s' n, s.addTask pcb stack orphanOnExit monitorChildren = some s' ∧ Added s s' pcb n cur orphanOnExit monitorChildren ∧
      n.kernelStackVirt = stack := by
  let new : Task :=
    { pid := wrap32 s.nextPid, state := .ready, kernelStackVirt := stack,
      parent := some s.currentTask, children := none, nextSibling := cur.children,
      exitCode := 0, orphanOnExit := orphanOnExit, monitorChildren := monitorChildren,
      next := none, prev := none, reaperNext := none, sleepUntil := 0, birth := s.nextPid }
  let s₁ : Scheduler := { s.withTask pcb new with
    nextPid := s.nextPid + 1
    log := .created cur.birth s.nextPid pcb stack :: s.log }
  have hne : s.currentTask ≠ pcb := ne_of_task hcur hfree
  have hcur₁ : s₁.task s₁.currentTask = some cur := (withTask_task_of_ne hne).trans hcur
  let s₂ := s₁.withTask s₁.currentTask { cur with children := some pcb }
  have hnew₂ : s₂.task pcb = some new :=
    (withTask_task_of_ne hne.symm).trans withTask_task_self
  have htask₂ : ∀ q, q ≠ pcb → q ≠ s.currentTask → s₂.task q = s.task q := by
    intro q hq hqc
    exact (withTask_task_of_ne hqc).trans (withTask_task_of_ne hq)
  have hcur₂ : s₂.task s.currentTask = some { cur with children := some pcb } :=
    withTask_task_self
  obtain ⟨rest, hr, hmem⟩ := h.ring
  have hnotin : pcb ∉ s.currentTask :: rest := by
    intro hin
    exact ((hmem pcb).mp hin).task_ne_none hfree
  have hkeep : ∀ g : Task → Option Pcb, (∀ t x, g { t with children := x } = g t) →
      ∀ q, q ≠ pcb → s₂.link g q = s.link g q := by
    intro g hg q hq
    by_cases hqc : q = s.currentTask
    · rw [hqc, link_of_task hcur₂, link_of_task hcur, hg]
    · exact link_congr (htask₂ q hq hqc)
  have hr₂ : Ring (s₂.link Task.next) (s₂.link Task.prev) s.currentTask rest := by
    apply hr.congr
    · intro a ha
      exact hkeep _ (fun _ _ => rfl) a fun e => hnotin (e ▸ ha)
    · intro a ha
      exact hkeep _ (fun _ _ => rfl) a fun e => hnotin (e ▸ ha)
  have hmem₂ : ∀ q ∈ s.currentTask :: rest, s₂.task q ≠ none := by
    intro q hq
    have hqp : q ≠ pcb := fun e => hnotin (e ▸ hq)
    by_cases hqc : q = s.currentTask
    · rw [hqc, hcur₂]
      simp
    · rw [htask₂ q hqp hqc]
      exact ((hmem q).mp hq).task_ne_none
  obtain ⟨s', hadd, hrelinked, hring⟩ := taskQueueAdd_spec (s := s₂) hr₂ hmem₂ hnew₂ hnotin
  obtain ⟨n, hn, hnn⟩ := hrelinked.exists_task hnew₂
  have hjoined : Joined s s' pcb := by
    intro q hq
    have hrel := congrArg (Option.map Task.childless) (hrelinked.task q)
    rw [Option.map_map, Option.map_map] at hrel
    have hcomp : Task.childless ∘ Task.unlinked = Task.childless := rfl
    rw [hcomp] at hrel
    rw [hrel]
    by_cases hqc : q = s.currentTask
    · rw [hqc, hcur₂, hcur]
      rfl
    · rw [htask₂ q hq hqc]
  have hdead : ∀ q, s'.Dead q ↔ s.Dead q := by
    intro q
    by_cases hq : q = pcb
    · subst hq
      have hstate := Task.field_eq hnn Task.state fun _ => rfl
      simp [Dead, hn, hfree, hstate, new]
    · exact hjoined.dead hq
  refine ⟨s', n, ?_, ?_, Task.field_eq hnn Task.kernelStackVirt fun _ => rfl⟩
  · simp only [addTask, hcur, Option.bind_eq_bind, Option.bind_some]
    change (s₁.set s₁.currentTask fun t => { t with children := some pcb }).bind
      (fun s => s.taskQueueAdd pcb) = some s'
    rw [set_of_task hcur₁]
    exact hadd
  · constructor
    case queue =>
      constructor
      case ring =>
        refine ⟨pcb :: rest, hrelinked.currentTask ▸ hring, fun q => ?_⟩
        rw [hrelinked.currentTask]
        show q ∈ s.currentTask :: pcb :: rest ↔ _
        by_cases hq : q = pcb
        · subst hq
          have hstate := Task.field_eq hnn Task.state fun _ => rfl
          simp [Alive, hn, hstate, new]
        · rw [hjoined.alive hq, ← hmem]
          simp [hq]
      case dead =>
        obtain ⟨l, hl, hmeml⟩ := h.dead
        rw [hrelinked.deadTasksHead, hrelinked.reaped]
        refine ⟨l, hl.congr fun q hq => ?_,
          fun q => (hmeml q).trans (and_congr_left fun _ => (hdead q).symm)⟩
        apply hjoined.link_eq _ fun _ => rfl
        rintro rfl
        obtain ⟨⟨t, ht, -⟩, -⟩ := (hmeml q).mp hq
        simp [hfree] at ht
      case reaped =>
        intro q hq
        exact (hdead q).mpr (h.reaped q (hrelinked.reaped ▸ hq))
    case new => exact hn
    case joined => exact hjoined
    case childrenCurrent =>
      rw [hrelinked.link_eq fun _ => rfl, link_of_task hcur₂]
    case children =>
      intro q hq hqc
      rw [hrelinked.link_eq fun _ => rfl]
      exact link_congr (htask₂ q hq hqc)
    case frame =>
      have hstack : n.kernelStackVirt = stack :=
        Task.field_eq hnn Task.kernelStackVirt fun _ => rfl
      rw [hstack]
      exact (congrArg (fun x : Scheduler => { x with task := s.task }) hrelinked.frame :)
    case pid => exact Task.field_eq hnn Task.pid fun _ => rfl
    case state => exact Task.field_eq hnn Task.state fun _ => rfl
    case parent => exact Task.field_eq hnn Task.parent fun _ => rfl
    case noChildren => exact Task.field_eq hnn Task.children fun _ => rfl
    case nextSibling => exact Task.field_eq hnn Task.nextSibling fun _ => rfl
    case birth => exact Task.field_eq hnn Task.birth fun _ => rfl
    case flags =>
      exact ⟨Task.field_eq hnn Task.orphanOnExit fun _ => rfl,
        Task.field_eq hnn Task.monitorChildren fun _ => rfl⟩

/-- The tree with a new task, which heads the children of its parent if it has one. -/
theorem FamilyInv.joined (h : FamilyInv (s.link Task.children) s)
    (hfree : s.task pcb = none) (hj : Joined s s' pcb) (hnew : s'.task pcb = some n)
    (hstate : n.state = .ready) (hchildren : n.children = none)
    (habove : ∀ p, n.parent = some p → s.Alive p ∧ (∀ t, s.task p = some t → t.state ≠ .zombie) ∧
      s'.link Task.children p = some pcb ∧ n.nextSibling = s.link Task.children p)
    (hroot : n.parent = none → n.nextSibling = none)
    (hother : ∀ q, q ≠ pcb → n.parent ≠ some q →
      s'.link Task.children q = s.link Task.children q) :
    FamilyInv (s'.link Task.children) s' := by
  have hne : ∀ q, s.Alive q → q ≠ pcb := by
    rintro q hq rfl
    exact hq.task_ne_none hfree
  constructor
  case tree =>
    apply h.tree.add (fun ha => hne pcb ha rfl)
    · intro q
      by_cases hqp : q = pcb
      · simp [hqp, Alive, hnew, hstate]
      · simp [hj.alive hqp, hqp]
    · intro p hp
      obtain ⟨halive, -, hcurrent, hsib⟩ := habove p hp
      exact ⟨halive, hcurrent, (link_of_task hnew).trans hsib⟩
    · exact fun hnone => (link_of_task hnew).trans (hroot hnone)
    · rw [link_of_task hnew, hchildren]
    · exact link_of_task hnew
    · intro q hq hqc
      exact hother q (hne q hq) hqc
    · intro q hq
      exact hj.link_eq (hne q hq) fun _ => rfl
    · intro q hq
      exact hj.link_eq (hne q hq) fun _ => rfl
  case zombie =>
    intro q t' ht' hz
    have hqp : q ≠ pcb := by
      rintro rfl
      rw [hnew, Option.some.injEq] at ht'
      rw [← ht', hstate] at hz
      exact absurd hz (by decide)
    obtain ⟨t, ht, he⟩ := hj.exists_task' hqp ht'
    rw [Task.childless_eq he Task.state fun _ => rfl] at hz
    rw [hother q hqp fun hp => (habove q hp).2.1 t ht hz, h.zombie q t ht hz]

/-- The tree with a new task under the current one. -/
theorem FamilyInv.joinedChild (h : FamilyInv (s.link Task.children) s) (hq : QueueInv s)
    (hfree : s.task pcb = none) (hj : Joined s s' pcb) (hnew : s'.task pcb = some n)
    (hcur : s.task s.currentTask = some cur) (hzombie : cur.state ≠ .zombie)
    (hstate : n.state = .ready) (hparent : n.parent = some s.currentTask)
    (hchildren : n.children = none) (hsib : n.nextSibling = cur.children)
    (hcurrent : s'.link Task.children s.currentTask = some pcb)
    (hother : ∀ q, q ≠ pcb → q ≠ s.currentTask →
      s'.link Task.children q = s.link Task.children q) :
    FamilyInv (s'.link Task.children) s' := by
  refine h.joined hfree hj hnew hstate hchildren ?_ (by simp [hparent]) fun q hq hqc =>
    hother q hq fun heq => hqc (heq ▸ hparent)
  rw [hparent]
  rintro p ⟨⟩
  refine ⟨hq.current, fun t ht => ?_, hcurrent, hsib.trans (link_of_task hcur).symm⟩
  rw [hcur, Option.some.injEq] at ht
  exact ht ▸ hzombie

/-- The other invariants with a new task. -/
theorem TaskInv.joined (h : TaskInv s) (hfresh : s.Fresh pcb n.kernelStackVirt)
    (hq : QueueInv s') (hf : FamilyInv (s'.link Task.children) s') (hj : Joined s s' pcb)
    (hnew : s'.task pcb = some n) (hcur : s.task s.currentTask = some cur)
    (hstate : n.state = .ready) (hparent : n.parent = none ∨ n.parent = some s.currentTask)
    (hbirth : n.birth = s.nextPid) (hmain : s'.mainTask = s.mainTask)
    (hpid : s'.nextPid = s.nextPid + 1)
    (hlog : s'.log = .created cur.birth s.nextPid pcb n.kernelStackVirt :: s.log)
    (hroot : n.parent = none → n.pid = 1)
    (hpolicy : n.orphanOnExit = true ∨ n.monitorChildren = true)
    (hinit : s'.initTask = s.initTask ∨
      s'.initTask = pcb ∧ n.pid = 1 ∧ (n.parent = none ∨ n.parent = some s.mainTask)) :
    TaskInv s' := by
  obtain ⟨hlimit, hfree, hstack, hunique⟩ := hfresh
  have hne : ∀ q t, s.task q = some t → q ≠ pcb := by
    rintro q t ht rfl
    simp [hfree] at ht
  have hold : ∀ p t, s.task p = some t → ∃ t', s'.task p = some t' ∧ t.Ages t' := by
    intro p t ht
    obtain ⟨t', ht', he⟩ := hj.exists_task (hne p t ht) ht
    exact ⟨t', ht', .of_childless he⟩
  have hcases : ∀ p v, s'.task p = some v → (p = pcb ∧ v = n) ∨
      (p ≠ pcb ∧ ∃ t, s.task p = some t ∧ v.childless = t.childless) := by
    intro p v hv
    by_cases hp : p = pcb
    · rw [hp, hnew, Option.some.injEq] at hv
      exact Or.inl ⟨hp, hv.symm⟩
    · exact Or.inr ⟨hp, hj.exists_task' hp hv⟩
  constructor
  case queue => exact hq
  case family => exact hf
  case roles =>
    constructor
    case limit =>
      intro p v hv
      rcases hcases p v hv with ⟨rfl, -⟩ | ⟨-, t, ht, -⟩
      · exact hlimit
      · exact h.roles.limit p t ht
    case main =>
      obtain ⟨m, hm, hmpid, hmstate, hmparent⟩ := h.roles.main
      obtain ⟨m', hm', he⟩ := hj.exists_task (hne _ m hm) hm
      refine ⟨m', hmain ▸ hm', ?_, ?_, ?_⟩
      · rw [Task.childless_eq he Task.pid fun _ => rfl, hmpid]
      · rwa [Task.childless_eq he Task.state fun _ => rfl]
      · rw [Task.childless_eq he Task.parent fun _ => rfl, hmparent]
    case init =>
      rcases hinit with hinit | ⟨hinit, hpid1, hpar⟩
      · obtain ⟨i, hi, hipid, hiz, hil, hiparent⟩ := h.roles.init
        obtain ⟨i', hi', he⟩ := hj.exists_task (hne _ i hi) hi
        have hstate' := Task.childless_eq he Task.state fun _ => rfl
        refine ⟨i', hinit ▸ hi', ?_, hstate' ▸ hiz, hstate' ▸ hil, ?_⟩
        · rw [Task.childless_eq he Task.pid fun _ => rfl, hipid]
        · rw [Task.childless_eq he Task.parent fun _ => rfl, hmain]
          exact hiparent
      · rw [hinit, hmain]
        exact ⟨n, hnew, hpid1, by simp [hstate], by simp [hstate], hpar⟩
    case root =>
      intro p v hv hl hpar
      rcases hcases p v hv with ⟨-, rfl⟩ | ⟨-, t, ht, he⟩
      · exact hroot hpar
      · rw [Task.childless_eq he Task.pid fun _ => rfl]
        apply h.roles.root p t ht
        · rwa [Task.childless_eq he Task.state fun _ => rfl] at hl
        · rwa [Task.childless_eq he Task.parent fun _ => rfl] at hpar
    case policy =>
      intro p v hv
      rcases hcases p v hv with ⟨-, rfl⟩ | ⟨-, t, ht, he⟩
      · exact hpolicy
      · rw [Task.childless_eq he Task.orphanOnExit fun _ => rfl,
          Task.childless_eq he Task.monitorChildren fun _ => rfl]
        exact h.roles.policy p t ht
  case supply =>
    constructor
    case stack =>
      intro p v hv
      rw [hmain]
      rcases hcases p v hv with ⟨rfl, rfl⟩ | ⟨-, t, ht, he⟩
      · obtain ⟨m, hm, -⟩ := h.roles.main
        exact ⟨fun e => absurd e hstack, fun e => absurd e.symm (hne _ m hm)⟩
      · rw [Task.childless_eq he Task.kernelStackVirt fun _ => rfl]
        exact h.supply.stack p t ht
    case stack_inj =>
      intro p q v w hv hw he
      rcases hcases p v hv with ⟨rfl, rfl⟩ | ⟨-, t, ht, hvt⟩
      · rcases hcases q w hw with ⟨rfl, -⟩ | ⟨-, u, hu, hwu⟩
        · rfl
        · rw [Task.childless_eq hwu Task.kernelStackVirt fun _ => rfl] at he
          exact absurd he.symm (hunique q u hu)
      · rcases hcases q w hw with ⟨rfl, rfl⟩ | ⟨-, u, hu, hwu⟩
        · rw [Task.childless_eq hvt Task.kernelStackVirt fun _ => rfl] at he
          exact absurd he (hunique p t ht)
        · rw [Task.childless_eq hvt Task.kernelStackVirt fun _ => rfl,
            Task.childless_eq hwu Task.kernelStackVirt fun _ => rfl] at he
          exact h.supply.stack_inj p q t u ht hu he
    case birth_lt =>
      intro p v hv
      rw [hpid]
      rcases hcases p v hv with ⟨-, rfl⟩ | ⟨-, t, ht, he⟩
      · rw [hbirth]
        exact Nat.lt_succ_self _
      · rw [Task.childless_eq he Task.birth fun _ => rfl]
        exact (h.supply.birth_lt p t ht).trans (Nat.lt_succ_self _)
    case birth_inj =>
      intro p q v w hv hw he
      rcases hcases p v hv with ⟨rfl, rfl⟩ | ⟨-, t, ht, hvt⟩
      · rcases hcases q w hw with ⟨rfl, -⟩ | ⟨-, u, hu, hwu⟩
        · rfl
        · rw [hbirth, Task.childless_eq hwu Task.birth fun _ => rfl] at he
          exact absurd he (h.supply.birth_lt q u hu).ne'
      · rcases hcases q w hw with ⟨rfl, rfl⟩ | ⟨-, u, hu, hwu⟩
        · rw [hbirth, Task.childless_eq hvt Task.birth fun _ => rfl] at he
          exact absurd he (h.supply.birth_lt p t ht).ne
        · rw [Task.childless_eq hvt Task.birth fun _ => rfl,
            Task.childless_eq hwu Task.birth fun _ => rfl] at he
          exact h.supply.birth_inj p q t u ht hu he
  case ledger =>
    apply h.ledger.created h.supply hfree hmain hpid hlog hnew hbirth (by simp [hstate]) hparent
      hcur _ hold
    · intro p hp ht
      exact hj.none_of hp ht
    · intro p t ht hl hpar
      have hup := h.family.tree.up pcb p ⟨t, ht, hl⟩ (by rw [link_of_task ht, hpar])
      exact hup.task_ne_none hfree

/-- `task_create` and `task_fork` keep the invariants. -/
theorem TaskInv.addTask (h : TaskInv s) (hfresh : s.Fresh pcb stack)
    (hpolicy : orphanOnExit = true ∨ monitorChildren = true)
    (hcur : s.task s.currentTask = some cur) (hactive : cur.state ≠ .zombie) :
    ∃ s' n, s.addTask pcb stack orphanOnExit monitorChildren = some s' ∧ Added s s' pcb n cur orphanOnExit monitorChildren ∧
      TaskInv s' := by
  obtain ⟨s', n, hrun, ha, hstack⟩ := addTask_spec stack orphanOnExit monitorChildren h.queue hcur
    hfresh.2.1
  have hf := h.family.joinedChild h.queue hfresh.2.1 ha.joined ha.new hcur hactive ha.state
    ha.parent ha.noChildren ha.nextSibling ha.childrenCurrent ha.children
  refine ⟨s', n, hrun, ha, ?_⟩
  subst hstack
  have hframe := ha.frame
  apply h.joined hfresh ha.queue hf ha.joined ha.new hcur ha.state (Or.inr ha.parent) ha.birth
  · exact (congrArg Scheduler.mainTask hframe :)
  · exact (congrArg Scheduler.nextPid hframe :)
  · exact (congrArg Scheduler.log hframe :)
  · intro hnone
    simp [ha.parent] at hnone
  · rw [ha.flags.1, ha.flags.2]
    exact hpolicy
  · exact Or.inl (congrArg Scheduler.initTask hframe :)

/-- A pid that no task gets. -/
theorem TaskInv.skipPid (h : TaskInv s) : TaskInv { s with nextPid := s.nextPid + 1 } := by
  refine ⟨⟨h.queue.ring, h.queue.dead, h.queue.reaped⟩, ⟨h.family.tree, h.family.zombie⟩,
    ⟨h.roles.limit, h.roles.main, h.roles.init, h.roles.root, h.roles.policy⟩,
    ⟨h.supply.stack, h.supply.stack_inj, ?_, h.supply.birth_inj⟩,
    ⟨?_, h.ledger.held, h.ledger.unfreed, h.ledger.released, h.ledger.zombie,
      h.ledger.active, h.ledger.undelivered, h.ledger.parents, h.ledger.orderly⟩⟩
  · intro p t ht
    exact (h.supply.birth_lt p t ht).trans (Nat.lt_succ_self _)
  · intro e he
    exact (h.ledger.recent e he).trans (Nat.lt_succ_self _)

theorem SchedulerInv.running (h : SchedulerInv s) (hphase : s.phase = .running) :
    ∃ t, s.task s.currentTask = some t ∧ t.state = .running := by
  obtain ⟨t, ht, -, hrunning⟩ := h.awake
  exact ⟨t, ht, hrunning hphase⟩

theorem SchedulerInv.skipPid (h : SchedulerInv s) :
    SchedulerInv { s with nextPid := s.nextPid + 1 } :=
  ⟨h.tasks.skipPid, h.busy, h.reaper, h.awake⟩

theorem SchedulerInv.addTask (h : SchedulerInv s) (hphase : s.phase = .running)
    (hfresh : s.Fresh pcb stack) (hpolicy : orphanOnExit = true ∨ monitorChildren = true) :
    ∃ s', s.addTask pcb stack orphanOnExit monitorChildren = some s' ∧ SchedulerInv s' := by
  obtain ⟨cur, hcur, hrunning⟩ := h.running hphase
  obtain ⟨s', n, hrun, ha, hs'⟩ := h.tasks.addTask hfresh hpolicy hcur (by simp [hrunning])
  have hframe := ha.frame
  have hphase' : s'.phase = s.phase := (congrArg Scheduler.phase hframe :)
  have hcurrent : s'.currentTask = s.currentTask := (congrArg Scheduler.currentTask hframe :)
  have hne : s.currentTask ≠ pcb := ne_of_task hcur hfresh.2.1
  obtain ⟨cur', hcur', he⟩ := ha.joined.exists_task hne hcur
  have hstate : cur'.state = .running :=
    (Task.childless_eq he Task.state fun _ => rfl).trans hrunning
  refine ⟨s', hrun, hs', hphase' ▸ h.busy, fun _ => ?_, cur', hcurrent ▸ hcur', by simp [hstate],
    fun _ => hstate⟩
  exact (congrArg Scheduler.reaped hframe :).trans (h.reaper (by simp [hphase]))

theorem taskCreate_spec (h : SchedulerInv s) (hphase : s.phase = .running) {memory : NewTask}
    (hfresh : s.FreshMemory memory) : ∃ s', s.taskCreate memory = some s' ∧ SchedulerInv s' := by
  cases memory with
  | noMemory => exact ⟨s, rfl, h⟩
  | noSpace => exact ⟨_, rfl, h.skipPid⟩
  | ok pcb stack => exact h.addTask hphase hfresh (Or.inl rfl)

theorem taskFork_spec (h : SchedulerInv s) (hphase : s.phase = .running) {memory : NewTask}
    (hfresh : s.FreshMemory memory) : ∃ s', s.taskFork memory = some s' ∧ SchedulerInv s' := by
  cases memory with
  | noMemory => exact ⟨s, rfl, h⟩
  | noSpace => exact ⟨_, rfl, h.skipPid⟩
  | ok pcb stack =>
    obtain ⟨cur, hcur, -⟩ := h.running hphase
    simp only [taskFork, hcur, Option.bind_eq_bind, Option.bind_some]
    exact h.addTask hphase hfresh (h.tasks.roles.policy _ cur hcur)

theorem QueueInv.congrInit (h : QueueInv s) (init : Pcb) : QueueInv { s with initTask := init } :=
  ⟨h.ring, h.dead, h.reaped⟩

/-- `kernel_main` starts Init. -/
theorem startInit_spec (h : SchedulerInv s) (hphase : s.phase = .running)
    (hmain : s.currentTask = s.mainTask) (hfresh : s.Fresh pcb stack) :
    ∃ s', s.startInit pcb stack = some s' ∧ SchedulerInv s' := by
  obtain ⟨cur, hcur, hrunning⟩ := h.running hphase
  obtain ⟨s₁, n, hrun, ha, hstack⟩ := addTask_spec stack true false h.tasks.queue hcur
    hfresh.2.1
  have hframe := ha.frame
  have hne : s.currentTask ≠ pcb := ne_of_task hcur hfresh.2.1
  let s' : Scheduler := { s₁.withTask pcb n.asInit with initTask := pcb }
  have hnew : s'.task pcb = some n.asInit := withTask_task_self
  have hother : ∀ q, q ≠ pcb → s'.task q = s₁.task q := fun q hq => withTask_task_of_ne hq
  have hjoined : Joined s s' pcb := by
    intro q hq
    rw [hother q hq]
    exact ha.joined q hq
  have hqueue₁ : QueueInv (s₁.withTask pcb n.asInit) :=
    ha.queue.withTask ha.new rfl rfl rfl Iff.rfl
  have hqueue : QueueInv s' := hqueue₁.congrInit pcb
  have hf : FamilyInv (s'.link Task.children) s' := by
    apply h.tasks.family.joinedChild h.tasks.queue hfresh.2.1 hjoined hnew hcur
      (by simp [hrunning]) ha.state ha.parent ha.noChildren ha.nextSibling
    · rw [link_congr (hother _ hne), ha.childrenCurrent]
    · intro q hq hqc
      rw [link_congr (hother q hq), ha.children q hq hqc]
  have hs' : TaskInv s' := by
    subst hstack
    apply h.tasks.joined (n := n.asInit) hfresh hqueue hf hjoined hnew hcur ha.state
      (Or.inr ha.parent) ha.birth
    · exact (congrArg Scheduler.mainTask hframe :)
    · exact (congrArg Scheduler.nextPid hframe :)
    · exact (congrArg Scheduler.log hframe :)
    · exact fun _ => rfl
    · exact Or.inr rfl
    · exact Or.inr ⟨rfl, rfl, Or.inr (hmain ▸ ha.parent)⟩
  obtain ⟨cur', hcur', he⟩ := hjoined.exists_task hne hcur
  have hstate : cur'.state = .running :=
    (Task.childless_eq he Task.state fun _ => rfl).trans hrunning
  have hcurrent : s'.currentTask = s.currentTask := (congrArg Scheduler.currentTask hframe :)
  refine ⟨s', ?_, hs', ?_, fun _ => ?_, cur', hcurrent ▸ hcur', by simp [hstate], fun _ => hstate⟩
  · simp only [startInit, taskCreate, Option.bind_eq_bind, hrun, Option.bind_some,
      set_of_task ha.new]
    rfl
  · rw [show s'.phase = s.phase from (congrArg Scheduler.phase hframe :)]
    exact h.busy
  · exact (congrArg Scheduler.reaped hframe :).trans (h.reaper (by simp [hphase]))

/-- `respawn_init_task` for a current task that is not the one that died: the new Init
joins the ring of all the others, and is no one's child. -/
theorem respawnInitTask_spec (h : TaskInv s) (hfresh : s.Fresh pcb stack) :
    ∃ s', s.respawnInitTask pcb stack = some s' ∧ TaskInv s' ∧ s'.phase = s.phase ∧
      s'.reaped = s.reaped ∧ s'.currentTask = s.currentTask ∧ Joined s s' pcb ∧
      s'.deadTasksHead = s.deadTasksHead ∧ s'.tickCount = s.tickCount ∧
      s'.initTask = pcb := by
  obtain ⟨cur, hcur, -⟩ := h.queue.current
  obtain ⟨s₁, n, hrun, ha, hstack⟩ := addTask_spec stack true false h.queue hcur hfresh.2.1
  have hframe := ha.frame
  have hcurrent : s₁.currentTask = s.currentTask := (congrArg Scheduler.currentTask hframe :)
  have hne : s.currentTask ≠ pcb := ne_of_task hcur hfresh.2.1
  let s₂ := s₁.withTask pcb n.asInit
  obtain ⟨cur₁, hcur₁, he₁⟩ := ha.joined.exists_task hne hcur
  have hcur₂ : s₂.task s₂.currentTask = some cur₁ := by
    show (s₁.withTask pcb n.asInit).task s₁.currentTask = _
    rw [hcurrent, withTask_task_of_ne hne, hcur₁]
  have hhead : cur₁.children = some pcb := by
    rw [← link_of_task (g := Task.children) hcur₁, ha.childrenCurrent]
  let s₃ := s₂.withTask s₂.currentTask { cur₁ with children := cur.children }
  have hunlink : s₂.unlinkChild s₂.currentTask pcb = some s₃ := by
    have hn₂ : s₂.task pcb = some n.asInit := withTask_task_self
    simp only [unlinkChild, hcur₂, hn₂, Option.bind_eq_bind, Option.bind_some, if_pos hhead,
      set_of_task hcur₂]
    rw [show n.asInit.nextSibling = cur.children from ha.nextSibling]
  have hn₃ : s₃.task pcb = some n.asInit := by
    rw [withTask_task_of_ne]
    · exact withTask_task_self
    · exact fun e => hne (hcurrent.symm.trans e.symm)
  let root : Task := { n.asInit with parent := none, nextSibling := none }
  let s' : Scheduler := { s₃.withTask pcb root with initTask := pcb }
  have hnew : s'.task pcb = some root := withTask_task_self
  have hcur' : s'.task s.currentTask = some { cur₁ with children := cur.children } := by
    have : s₃.task s.currentTask = some { cur₁ with children := cur.children } := by
      rw [← hcurrent]
      exact withTask_task_self
    exact (withTask_task_of_ne hne).trans this
  have hother : ∀ q, q ≠ pcb → q ≠ s.currentTask → s'.task q = s₁.task q := by
    intro q hq hqc
    have hqc₂ : q ≠ s₂.currentTask := fun e => hqc (e.trans hcurrent)
    exact (withTask_task_of_ne hq).trans
      ((withTask_task_of_ne hqc₂).trans (withTask_task_of_ne hq))
  have hjoined : Joined s s' pcb := by
    intro q hq
    by_cases hqc : q = s.currentTask
    · rw [hqc, hcur', hcur]
      exact congrArg some he₁
    · rw [hother q hq hqc]
      exact ha.joined q hq
  have hqueue : QueueInv s' := by
    have h₂ : QueueInv s₂ := ha.queue.withTask ha.new rfl rfl rfl Iff.rfl
    have h₃ : QueueInv s₃ := h₂.withTask hcur₂ rfl rfl rfl Iff.rfl
    have h₄ : QueueInv (s₃.withTask pcb root) := h₃.withTask hn₃ rfl rfl rfl Iff.rfl
    exact h₄.congrInit pcb
  have hf : FamilyInv (s'.link Task.children) s' := by
    apply h.family.joined hfresh.2.1 hjoined hnew ha.state ha.noChildren (by rintro p ⟨⟩)
      (fun _ => rfl)
    intro q hq _
    by_cases hqc : q = s.currentTask
    · rw [hqc, link_of_task hcur', link_of_task hcur]
    · rw [link_congr (hother q hq hqc), ha.children q hq hqc]
  refine ⟨s', ?_, ?_, ?_⟩
  · simp only [respawnInitTask, taskCreate, Option.bind_eq_bind, hrun, Option.bind_some,
      set_of_task ha.new]
    rw [show s₁.withTask pcb n.asInit = s₂ from rfl, hunlink, Option.bind_some, set_of_task hn₃]
    rfl
  · subst hstack
    apply h.joined (n := root) hfresh hqueue hf hjoined hnew hcur ha.state (Or.inl rfl) ha.birth
    · exact (congrArg Scheduler.mainTask hframe :)
    · exact (congrArg Scheduler.nextPid hframe :)
    · exact (congrArg Scheduler.log hframe :)
    · exact fun _ => rfl
    · exact Or.inr rfl
    · exact Or.inr ⟨rfl, rfl, Or.inl rfl⟩
  · exact ⟨(congrArg Scheduler.phase hframe :), (congrArg Scheduler.reaped hframe :), hcurrent,
      hjoined, (congrArg Scheduler.deadTasksHead hframe :),
      (congrArg Scheduler.tickCount hframe :), rfl⟩

/-- A dead task that is on no list is given back. -/
theorem TaskInv.freed (h : TaskInv s) (ht : s.task p = some t) (hdead : t.state = .dead)
    (hfree : s'.task = Function.update s.task p none) (hcurrent : s'.currentTask = s.currentTask)
    (hinit : s'.initTask = s.initTask) (hmain : s'.mainTask = s.mainTask)
    (hhead : s'.deadTasksHead = s.deadTasksHead) (hreaped : s.reaped = some p)
    (hreaped' : s'.reaped = none) (hpid : s'.nextPid = s.nextPid)
    (hlog : s'.log = .freedPcb t.birth p :: .freedStack t.birth t.kernelStackVirt :: s.log) :
    TaskInv s' := by
  have hnone : s'.task p = none := by rw [hfree, Function.update_self]
  have hother : ∀ q, q ≠ p → s'.task q = s.task q := by
    intro q hq
    rw [hfree, Function.update_of_ne hq]
  have hne : ∀ q, s.Alive q → q ≠ p := by
    rintro q hq rfl
    exact hq.not_dead ⟨t, ht, hdead⟩
  have halive : ∀ q, s'.Alive q ↔ s.Alive q := by
    intro q
    by_cases hq : q = p
    · subst hq
      simp [Alive, hnone, ht, hdead]
    · exact alive_congr (hother q hq)
  have hcases : ∀ q v, s'.task q = some v → q ≠ p ∧ s.task q = some v := by
    intro q v hv
    have hq : q ≠ p := by
      rintro rfl
      simp [hnone] at hv
    exact ⟨hq, hother q hq ▸ hv⟩
  have hlink : ∀ (g : Task → Option Pcb) q, s.Alive q → s'.link g q = s.link g q :=
    fun g q hq => link_congr (hother q (hne q hq))
  constructor
  case queue =>
    constructor
    case ring =>
      obtain ⟨rest, hr, hmem⟩ := h.queue.ring
      refine ⟨rest, ?_, fun q => ?_⟩
      · rw [hcurrent]
        apply hr.congr
        · exact fun q hq => hlink _ q ((hmem q).mp hq)
        · exact fun q hq => hlink _ q ((hmem q).mp hq)
      · rw [hcurrent, hmem, halive]
    case dead =>
      obtain ⟨l, hl, hmem⟩ := h.queue.dead
      have hlp : ∀ q ∈ l, q ≠ p := by
        rintro q hq rfl
        exact ((hmem q).mp hq).2 hreaped
      refine ⟨l, hhead ▸ hl.congr fun q hq => link_congr (hother q (hlp q hq)), fun q => ?_⟩
      rw [hmem, hreaped, hreaped']
      by_cases hq : q = p
      · subst hq
        simp [Dead, hnone]
      · have hqp : p ≠ q := fun e => hq e.symm
        rw [dead_congr (hother q hq)]
        simp [hqp]
    case reaped =>
      intro q hq
      simp [hreaped'] at hq
  case family =>
    constructor
    case tree =>
      exact h.family.tree.congr halive (fun q hq => hlink _ q hq) (fun q hq => hlink _ q hq)
        fun q hq => hlink _ q hq
    case zombie =>
      intro q v hv hz
      obtain ⟨hq, hv⟩ := hcases q v hv
      rw [link_congr (hother q hq)]
      exact h.family.zombie q v hv hz
  case roles =>
    constructor
    case limit => exact fun q v hv => h.roles.limit q v (hcases q v hv).2
    case main =>
      obtain ⟨m, hm, hmpid, hstate, hparent⟩ := h.roles.main
      have hlive : s.Alive s.mainTask := by
        refine ⟨m, hm, ?_⟩
        rcases hstate with h | h <;> simp [h]
      exact ⟨m, by rw [hmain, hother _ (hne _ hlive), hm], hmpid, hstate, hparent⟩
    case init =>
      obtain ⟨i, hi, hipid, hz, hl, hparent⟩ := h.roles.init
      exact ⟨i, by rw [hinit, hother _ (hne _ ⟨i, hi, hl⟩), hi], hipid, hz, hl,
        by rw [hmain]; exact hparent⟩
    case root => exact fun q v hv => h.roles.root q v (hcases q v hv).2
    case policy => exact fun q v hv => h.roles.policy q v (hcases q v hv).2
  case supply =>
    constructor
    case stack =>
      intro q v hv
      rw [hmain]
      exact h.supply.stack q v (hcases q v hv).2
    case stack_inj =>
      exact fun q r v w hv hw => h.supply.stack_inj q r v w (hcases q v hv).2 (hcases r w hw).2
    case birth_lt =>
      intro q v hv
      rw [hpid]
      exact h.supply.birth_lt q v (hcases q v hv).2
    case birth_inj =>
      exact fun q r v w hv hw => h.supply.birth_inj q r v w (hcases q v hv).2 (hcases r w hw).2
  case ledger => exact h.ledger.freed h.supply ht hfree hmain hpid hlog

/-- `release` gives back the stack and the block of the task that the reaper has taken. -/
theorem release_spec (h : TaskInv s) (hreaped : s.reaped = some p) :
    ∃ s', s.release p = some s' ∧ TaskInv s' ∧ s'.phase = s.phase ∧ s'.reaped = none ∧
      s'.currentTask = s.currentTask ∧ s'.initTask = s.initTask ∧ s'.tickCount = s.tickCount ∧
      s'.task = Function.update s.task p none := by
  obtain ⟨t, ht, hdead⟩ := h.queue.reaped p hreaped
  have hstack : t.kernelStackVirt ≠ 0 := by
    intro hz
    obtain ⟨m, hm, -, hstate, -⟩ := h.roles.main
    rw [(h.supply.stack p t ht).mp hz, hm] at ht
    cases ht
    rcases hstate with h | h <;> simp [h] at hdead
  let s' : Scheduler := { s with
    task := Function.update s.task p none
    reaped := none
    log := .freedPcb t.birth p :: .freedStack t.birth t.kernelStackVirt :: s.log }
  refine ⟨s', ?_, ?_⟩
  · simp only [release, ht, Option.bind_eq_bind, Option.bind_some, if_pos hstack]
    rfl
  · exact ⟨h.freed ht hdead rfl rfl rfl rfl rfl hreaped rfl rfl rfl, rfl, rfl, rfl, rfl, rfl, rfl⟩

/-- One round of the reaper gives back the task that heads its list, which is not the current
one; every other task stays in memory. -/
theorem reap_spec (h : SchedulerInv s) (hphase : s.phase = .reaping)
    (hhead : s.deadTasksHead = some p) {respawn : Option (Pcb × Nat)}
    (hfresh : ∀ pcb stack, respawn = some (pcb, stack) → s.Fresh pcb stack) :
    ∃ s', s.reap respawn = some s' ∧ SchedulerInv s' ∧ s.Dead p ∧ p ≠ s.currentTask ∧
      s'.currentTask = s.currentTask ∧ ∀ q t, q ≠ p → s.task q = some t →
        ∃ t', s'.task q = some t' ∧ t'.childless = t.childless := by
  obtain ⟨l, hl, hmem⟩ := h.tasks.queue.dead
  have hnone := h.reaper (by simp [hphase])
  rw [hhead] at hl
  obtain ⟨⟨t, ht, hdead⟩, -⟩ := (hmem p).mp hl.mem_of_head
  obtain ⟨cur, hcur, hready, -⟩ := h.awake
  have hcurp : s.currentTask ≠ p := by
    rintro rfl
    exact h.tasks.queue.current.not_dead ⟨t, ht, hdead⟩
  let s₀ : Scheduler := { s with deadTasksHead := t.reaperNext, reaped := some p }
  have h₀ : TaskInv s₀ := by
    refine ⟨⟨h.tasks.queue.ring, ?_, ?_⟩, ⟨h.tasks.family.tree, h.tasks.family.zombie⟩,
      ⟨h.tasks.roles.limit, h.tasks.roles.main, h.tasks.roles.init, h.tasks.roles.root,
        h.tasks.roles.policy⟩,
      ⟨h.tasks.supply.stack, h.tasks.supply.stack_inj, h.tasks.supply.birth_lt,
        h.tasks.supply.birth_inj⟩,
      ⟨h.tasks.ledger.recent, h.tasks.ledger.held, h.tasks.ledger.unfreed,
        h.tasks.ledger.released, h.tasks.ledger.zombie, h.tasks.ledger.active,
        h.tasks.ledger.undelivered, h.tasks.ledger.parents, h.tasks.ledger.orderly⟩⟩
    · cases l with
      | nil => simp at hl
      | cons a l =>
        have hnodup := List.nodup_cons.mp hl.nodup
        rw [Threaded.cons_iff, Option.some.injEq] at hl
        obtain ⟨rfl, hl⟩ := hl
        rw [link_of_task ht] at hl
        refine ⟨l, hl, fun q => ?_⟩
        have hq := hmem q
        rw [List.mem_cons, hnone] at hq
        show q ∈ l ↔ s.Dead q ∧ some p ≠ some q
        constructor
        · intro hin
          refine ⟨(hq.mp (Or.inr hin)).1, ?_⟩
          intro e
          exact hnodup.1 (Option.some.inj e ▸ hin)
        · rintro ⟨hd, hne⟩
          exact (hq.mpr ⟨hd, by simp⟩).resolve_left fun e => hne (by rw [e])
    · intro q hq
      obtain rfl : p = q := Option.some.inj hq
      exact ⟨t, ht, hdead⟩
  -- the end of the round, from a state in which the others are as before
  have hdone : ∀ s₁ : Scheduler, TaskInv s₁ → s₁.phase = .reaping → s₁.reaped = some p →
      s₁.currentTask = s.currentTask →
      (∀ q t, s.task q = some t → ∃ t', s₁.task q = some t' ∧ t'.childless = t.childless) →
      ∃ s', s₁.release p = some s' ∧ SchedulerInv s' ∧ s'.currentTask = s.currentTask ∧
        ∀ q t, q ≠ p → s.task q = some t →
          ∃ t', s'.task q = some t' ∧ t'.childless = t.childless := by
    intro s₁ h₁ hp₁ hr₁ hc₁ hothers
    obtain ⟨s', hrun, hs', hphase', hreaped', hcurrent', -, -, htask'⟩ := release_spec h₁ hr₁
    have hothers' : ∀ q t, q ≠ p → s.task q = some t →
        ∃ t', s'.task q = some t' ∧ t'.childless = t.childless := by
      intro q u hq hu
      rw [htask', Function.update_of_ne hq]
      exact hothers q u hu
    obtain ⟨cur', hcur', he⟩ := hothers' _ cur hcurp hcur
    refine ⟨s', hrun, ⟨hs', ?_, fun _ => hreaped', cur', ?_, ?_, ?_⟩, hcurrent'.trans hc₁,
      hothers'⟩
    · simp [hphase', hp₁]
    · rw [hcurrent', hc₁, hcur']
    · rw [Task.childless_eq he Task.state fun _ => rfl]
      exact hready
    · simp [hphase', hp₁]
  by_cases hpid : t.pid = 1
  · cases respawn with
    | none =>
      refine ⟨{ s₀ with phase := .halted }, ?_, ?_, ⟨t, ht, hdead⟩, hcurp.symm, rfl,
        fun q u _ hu => ⟨u, hu, rfl⟩⟩
      · simp only [reap, hhead, ht, Option.bind_eq_bind, Option.bind_some, if_pos hpid]
        rfl
      · exact ⟨h₀.congr rfl rfl rfl rfl rfl rfl rfl rfl, by simp, by simp, cur, hcur, hready,
          by simp⟩
    | some memory =>
      obtain ⟨pcb, stack⟩ := memory
      have hfresh₀ : s₀.Fresh pcb stack := hfresh pcb stack rfl
      obtain ⟨s₁, hrun, h₁, hp₁, hr₁, hc₁, hj, -⟩ := respawnInitTask_spec h₀ hfresh₀
      have hothers : ∀ q u, s.task q = some u →
          ∃ u', s₁.task q = some u' ∧ u'.childless = u.childless := by
        intro q u hu
        refine hj.exists_task ?_ hu
        rintro rfl
        have := hfresh₀.2.1
        simp [s₀, hu] at this
      obtain ⟨s', hrel, hs', hc', hothers'⟩ := hdone s₁ h₁ (hp₁.trans hphase) hr₁ hc₁ hothers
      refine ⟨s', ?_, hs', ⟨t, ht, hdead⟩, hcurp.symm, hc', hothers'⟩
      simp only [reap, hhead, ht, Option.bind_eq_bind, Option.bind_some, if_pos hpid]
      rw [show ({ s with deadTasksHead := t.reaperNext, reaped := some p } : Scheduler) = s₀
        from rfl, hrun, Option.bind_some, hrel]
  · obtain ⟨s', hrel, hs', hc', hothers'⟩ := hdone s₀ h₀ hphase rfl rfl
      fun q u hu => ⟨u, hu, rfl⟩
    refine ⟨s', ?_, hs', ⟨t, ht, hdead⟩, hcurp.symm, hc', hothers'⟩
    simp only [reap, hhead, ht, Option.bind_eq_bind, Option.bind_some, if_neg hpid]
    exact hrel

end Scheduler
end EnclaveOS
