import EnclaveOS.Process.Scheduler
import EnclaveOS.Foundation.KinTree
import Mathlib.Data.Finset.Card

/-!
# SchedulerInv - the run queue, the list of the reaper and the process tree

The invariants of the pointers between tasks, and what the operations on the queue do
to them.  The run queue is a ring of the tasks that are not dead, the dead ones are on
the list of the reaper, and the tree pointers form a forest of the others.
-/

namespace EnclaveOS

/-- A task without its queue pointers. -/
def Task.unlinked (t : Task) : Task := { t with next := none, prev := none }

theorem Task.field_eq {β : Type*} {t t' : Task} (h : t'.unlinked = t.unlinked) (g : Task → β)
    (hg : ∀ t, g (Task.unlinked t) = g t) : g t' = g t := by
  rw [← hg t', h, hg]

/-- What stays with a task to the end. -/
def Task.traits (t : Task) : Nat × Nat × Nat × Bool × Bool :=
  (t.pid, t.kernelStackVirt, t.birth, t.orphanOnExit, t.monitorChildren)

namespace Scheduler

variable {s s' s'' : Scheduler} {p q c new : Pcb} {t t' : Task} {rest : List Pcb}
  {g : Task → Option Pcb} {f : Task → Task} {heads : Pcb → Option Pcb}

/-- A pointer field of the task at an address. -/
def link (s : Scheduler) (g : Task → Option Pcb) (p : Pcb) : Option Pcb := (s.task p).bind g

/-- A task that has not been handed to the reaper. -/
def Alive (s : Scheduler) (p : Pcb) : Prop := ∃ t, s.task p = some t ∧ t.state ≠ .dead

/-- A task that only the reaper still has. -/
def Dead (s : Scheduler) (p : Pcb) : Prop := ∃ t, s.task p = some t ∧ t.state = .dead

/-- The state with a task replaced. -/
def withTask (s : Scheduler) (p : Pcb) (t : Task) : Scheduler :=
  { s with task := Function.update s.task p (some t) }

theorem set_of_task (ht : s.task p = some t) (f : Task → Task) :
    s.set p f = some (s.withTask p (f t)) := by
  simp [set, ht, withTask]

theorem withTask_task : (s.withTask p t).task q = if q = p then some t else s.task q :=
  Function.update_apply ..

@[simp]
theorem withTask_initTask : (s.withTask p t).initTask = s.initTask := rfl
@[simp]
theorem withTask_mainTask : (s.withTask p t).mainTask = s.mainTask := rfl
@[simp]
theorem withTask_deadTasksHead : (s.withTask p t).deadTasksHead = s.deadTasksHead := rfl
@[simp]
theorem withTask_task_self : (s.withTask p t).task p = some t := by
  simp [withTask_task]

theorem withTask_task_of_ne (h : q ≠ p) : (s.withTask p t).task q = s.task q := by
  simp [withTask_task, h]

@[simp]
theorem withTask_currentTask : (s.withTask p t).currentTask = s.currentTask := rfl
@[simp]
theorem withTask_reaped : (s.withTask p t).reaped = s.reaped := rfl

theorem ne_of_task (ht : s.task p = some t) (hq : s.task q = none) : p ≠ q := by
  rintro rfl
  simp [ht] at hq

theorem link_of_task (ht : s.task p = some t) : s.link g p = g t := by
  simp [link, ht]

theorem link_withTask : (s.withTask p t).link g q = if q = p then g t else s.link g q := by
  by_cases h : q = p <;> simp [link, withTask_task, h]

/-- A pointer field that keeps its value. -/
theorem link_withTask_same (ht : s.task p = some t) (hg : g t' = g t) :
    (s.withTask p t').link g = s.link g := by
  funext q
  rw [link_withTask]
  split_ifs with h
  · rw [h, link_of_task ht, hg]
  · rfl

theorem alive_withTask : (s.withTask p t).Alive q ↔
    if q = p then t.state ≠ .dead else s.Alive q := by
  by_cases h : q = p <;> simp [Alive, withTask_task, h]

theorem dead_withTask : (s.withTask p t).Dead q ↔
    if q = p then t.state = .dead else s.Dead q := by
  by_cases h : q = p <;> simp [Dead, withTask_task, h]

theorem alive_withTask_same (ht : s.task p = some t) (h : t'.state = .dead ↔ t.state = .dead) :
    (s.withTask p t').Alive q ↔ s.Alive q := by
  rw [alive_withTask]
  split_ifs with hq
  · simp [Alive, hq, ht, h]
  · rfl

theorem dead_withTask_same (ht : s.task p = some t) (h : t'.state = .dead ↔ t.state = .dead) :
    (s.withTask p t').Dead q ↔ s.Dead q := by
  rw [dead_withTask]
  split_ifs with hq
  · simp [Dead, hq, ht, h]
  · rfl

/-- Whether a task lives is a matter of its state. -/
theorem alive_of_state (h : (s'.task p).map Task.state = (s.task p).map Task.state) :
    s'.Alive p ↔ s.Alive p := by
  have hiff : ∀ s : Scheduler, s.Alive p ↔ ∃ v, (s.task p).map Task.state = some v ∧ v ≠ .dead := by
    simp [Alive]
  rw [hiff, h, ← hiff]

theorem dead_of_state (h : (s'.task p).map Task.state = (s.task p).map Task.state) :
    s'.Dead p ↔ s.Dead p := by
  have hiff : ∀ s : Scheduler, s.Dead p ↔ (s.task p).map Task.state = some .dead := by
    simp [Dead]
  rw [hiff, h, ← hiff]

theorem Alive.not_dead (h : s.Alive p) : ¬ s.Dead p := by
  rintro ⟨t, ht, hd⟩
  obtain ⟨u, hu, hl⟩ := h
  rw [ht, Option.some.injEq] at hu
  exact hl (hu ▸ hd)

/-- Only queue pointers have changed. -/
structure Relinked (s s' : Scheduler) : Prop where
  frame : { s' with task := s.task } = s
  task : ∀ p, (s'.task p).map Task.unlinked = (s.task p).map Task.unlinked

namespace Relinked

theorem trans (h : Relinked s s') (h' : Relinked s' s'') : Relinked s s'' := by
  refine ⟨?_, fun p => (h'.task p).trans (h.task p)⟩
  have h₁ := h.frame
  have h₂ := h'.frame
  rw [← h₂] at h₁
  exact h₁

theorem withTask (ht : s.task p = some t) (h : t'.unlinked = t.unlinked) :
    Relinked s (s.withTask p t') := by
  refine ⟨rfl, fun q => ?_⟩
  rw [withTask_task]
  split_ifs with hq
  · simp [hq, ht, h]
  · rfl

variable (h : Relinked s s')

include h

theorem exists_task (ht : s.task p = some t) :
    ∃ t', s'.task p = some t' ∧ t'.unlinked = t.unlinked := by
  have := h.task p
  rw [ht] at this
  simpa using this

theorem none_iff : s'.task p = none ↔ s.task p = none := by
  rw [← Option.map_eq_none_iff (f := Task.unlinked), h.task p, Option.map_eq_none_iff]

theorem state (p : Pcb) : (s'.task p).map Task.state = (s.task p).map Task.state := by
  have hmap := congrArg (Option.map Task.state) (h.task p)
  rw [Option.map_map, Option.map_map] at hmap
  exact hmap

theorem alive : s'.Alive p ↔ s.Alive p := alive_of_state (h.state p)

theorem dead : s'.Dead p ↔ s.Dead p := dead_of_state (h.state p)

/-- Pointer fields other than those of the queue are the same. -/
theorem link_eq (hg : ∀ t : Task, g t.unlinked = g t) : s'.link g = s.link g := by
  funext p
  cases ht : s.task p with
  | none => simp [link, ht, h.none_iff.mpr ht]
  | some t =>
    obtain ⟨t', ht', he⟩ := h.exists_task ht
    rw [link_of_task ht, link_of_task ht', Task.field_eq he g hg]

theorem currentTask : s'.currentTask = s.currentTask :=
  (congrArg Scheduler.currentTask h.frame :)
theorem deadTasksHead : s'.deadTasksHead = s.deadTasksHead :=
  (congrArg Scheduler.deadTasksHead h.frame :)
theorem reaped : s'.reaped = s.reaped :=
  (congrArg Scheduler.reaped h.frame :)

end Relinked

/-- `task_queue_add` links the new task in behind the current one. -/
theorem taskQueueAdd_spec (hr : Ring (s.link Task.next) (s.link Task.prev) s.currentTask rest)
    (hmem : ∀ p ∈ s.currentTask :: rest, s.task p ≠ none) (hnew : s.task new = some t)
    (hn : new ∉ s.currentTask :: rest) :
    ∃ s', s.taskQueueAdd new = some s' ∧ Relinked s s' ∧
      Ring (s'.link Task.next) (s'.link Task.prev) s.currentTask (new :: rest) := by
  obtain ⟨cur, hcur⟩ := Option.ne_none_iff_exists'.mp (hmem s.currentTask (by simp))
  have hne : s.currentTask ≠ new := fun e => hn (by simp [← e])
  obtain ⟨after, hafter, hnext, -⟩ := hr.next_mem (y := s.currentTask) (by simp)
  have hafter_ne : after ≠ new := fun e => hn (e ▸ hafter)
  have hcurnext : cur.next = some after := (link_of_task hcur).symm.trans hnext
  obtain ⟨a, ha⟩ := Option.ne_none_iff_exists'.mp (hmem after hafter)
  -- the three writes, the last two perhaps to the same task
  let s₁ := s.withTask new { t with next := cur.next, prev := some s.currentTask }
  let s₂ := s₁.withTask after { a with prev := some new }
  have ha₁ : s₁.task after = some a := by rw [withTask_task_of_ne hafter_ne, ha]
  have hcur₂ : ∃ u, s₂.task s.currentTask = some u ∧ u.unlinked = cur.unlinked ∧
      u.next = cur.next ∧ u.prev = if s.currentTask = after then some new else cur.prev := by
    by_cases he : s.currentTask = after
    · subst he
      rw [hcur] at ha
      cases ha
      exact ⟨_, withTask_task_self, rfl, rfl, by simp⟩
    · refine ⟨cur, ?_, rfl, rfl, by simp [he]⟩
      rw [withTask_task_of_ne he, withTask_task_of_ne hne, hcur]
  obtain ⟨u, hu, hun, hunext, huprev⟩ := hcur₂
  let s₃ := s₂.withTask s.currentTask { u with next := some new }
  refine ⟨s₃, ?_, ?_, ?_⟩
  · simp only [taskQueueAdd, hcur, Option.bind_eq_bind, Option.bind_some, set_of_task hnew,
      hcurnext]
    rw [show s.withTask new { t with next := some after, prev := some s.currentTask } = s₁ by
      simp only [s₁, hcurnext], set_of_task ha₁, Option.bind_some]
    exact set_of_task hu _
  · have h₁ : Relinked s s₁ := Relinked.withTask hnew rfl
    have h₂ : Relinked s₁ s₂ := Relinked.withTask ha₁ rfl
    exact (h₁.trans h₂).trans (Relinked.withTask hu rfl)
  · have hs₃ : s₃.link Task.prev = s₂.link Task.prev := link_withTask_same hu rfl
    have hnext' : ∀ q, s₃.link Task.next q =
        if q = s.currentTask then some new else if q = new then some after else
          s.link Task.next q := by
      intro q
      have hs₂ : s₂.link Task.next = s₁.link Task.next := link_withTask_same ha₁ rfl
      rw [link_withTask]
      by_cases hq : q = s.currentTask
      · simp [hq]
      · rw [if_neg hq, if_neg hq, hs₂, link_withTask]
        simp only [hcurnext]
    have hprev' : ∀ q, s₃.link Task.prev q =
        if q = after then some new else if q = new then some s.currentTask else
          s.link Task.prev q := by
      intro q
      rw [hs₃, link_withTask]
      by_cases hq : q = after
      · simp [hq]
      · rw [if_neg hq, if_neg hq, link_withTask]
    apply hr.insert hn
    · rw [hnext', if_neg hne.symm, if_pos rfl, hnext]
    · rw [hprev', if_neg hafter_ne.symm, if_pos rfl]
    · rw [hnext', if_pos rfl]
    · intro y hy
      rw [hnext, Option.some.injEq] at hy
      rw [hprev', if_pos hy.symm]
    · intro b hb hbc
      rw [hnext', if_neg hbc, if_neg hb]
    · intro b hb hba
      rw [hprev', if_neg, if_neg hb]
      rintro rfl
      exact hba hnext

/-- The neighbours of `c` have been linked to each other. -/
structure Bypassed (s s' : Scheduler) (c : Pcb) : Prop where
  relinked : Relinked s s'
  self : s'.task c = s.task c
  before : ∀ w, s.link Task.prev c = some w → s'.link Task.next w = s.link Task.next c
  after : ∀ w, s.link Task.next c = some w → s'.link Task.prev w = s.link Task.prev c
  next : ∀ w, w ≠ c → s.link Task.prev c ≠ some w → s'.link Task.next w = s.link Task.next w
  prev : ∀ w, w ≠ c → s.link Task.next c ≠ some w → s'.link Task.prev w = s.link Task.prev w

theorem bypass_spec (hr : Ring (s.link Task.next) (s.link Task.prev) c rest) (hrest : rest ≠ [])
    (hmem : ∀ p ∈ c :: rest, s.task p ≠ none) :
    ∃ s', s.bypass c = some s' ∧ Bypassed s s' c := by
  obtain ⟨t, ht⟩ := Option.ne_none_iff_exists'.mp (hmem c (by simp))
  obtain ⟨before, hbefore, hprev, hbnext⟩ := hr.prev_mem (y := c) (by simp)
  obtain ⟨after, hafter, hnext, haprev⟩ := hr.next_mem (y := c) (by simp)
  obtain ⟨b, hb⟩ := Option.ne_none_iff_exists'.mp (hmem before hbefore)
  obtain ⟨a, ha⟩ := Option.ne_none_iff_exists'.mp (hmem after hafter)
  have hself : s.link Task.next c ≠ some c := by
    intro hcc
    cases rest with
    | nil => exact hrest rfl
    | cons y ys =>
      rw [hr.next_cons, Option.some.injEq] at hcc
      exact (List.nodup_cons.mp hr.nodup).1 (by simp [← hcc])
  have hbc : before ≠ c := by
    rintro rfl
    exact hself hbnext
  have hac : after ≠ c := by
    rintro rfl
    exact hself hnext
  have htnext : t.next = some after := (link_of_task ht).symm.trans hnext
  have htprev : t.prev = some before := (link_of_task ht).symm.trans hprev
  let s₁ := s.withTask before { b with next := t.next }
  have hs₁ : s₁.task c = some t := by rw [withTask_task_of_ne hbc.symm, ht]
  have ha₁ : ∃ u, s₁.task after = some u ∧
      u.next = if after = before then t.next else a.next := by
    by_cases he : after = before
    · subst he
      exact ⟨_, withTask_task_self, by simp⟩
    · exact ⟨a, by rw [withTask_task_of_ne he, ha], by simp [he]⟩
  obtain ⟨u, hu, hunext⟩ := ha₁
  let s₂ := s₁.withTask after { u with prev := t.prev }
  have hs₂ : s₂.link Task.next = s₁.link Task.next := link_withTask_same hu rfl
  have hs₁' : s₁.link Task.prev = s.link Task.prev := link_withTask_same hb rfl
  have hnext' : ∀ w, s₂.link Task.next w =
      if w = before then some after else s.link Task.next w := by
    intro w
    rw [hs₂, link_withTask]
    simp only [htnext]
  have hprev' : ∀ w, s₂.link Task.prev w =
      if w = after then some before else s.link Task.prev w := by
    intro w
    rw [link_withTask, hs₁']
    simp only [htprev]
  refine ⟨s₂, ?_, ?_⟩
  · simp only [bypass, ht, Option.bind_eq_bind, Option.bind_some, htprev, set_of_task hb]
    rw [show s.withTask before { b with next := t.next } = s₁ from rfl, hs₁]
    simp only [Option.bind_some, htnext, set_of_task hu]
    rfl
  · constructor
    case relinked =>
      have h₁ : Relinked s s₁ := Relinked.withTask hb rfl
      exact h₁.trans (Relinked.withTask hu rfl)
    case self => rw [withTask_task_of_ne hac.symm, hs₁, ht]
    case before =>
      intro w hw
      rw [hprev, Option.some.injEq] at hw
      rw [hnext', if_pos hw.symm, hnext]
    case after =>
      intro w hw
      rw [hnext, Option.some.injEq] at hw
      rw [hprev', if_pos hw.symm, hprev]
    case next =>
      intro w _ hw
      rw [hnext', if_neg]
      rintro rfl
      exact hw hprev
    case prev =>
      intro w _ hw
      rw [hprev', if_neg]
      rintro rfl
      exact hw hnext

/-- The tasks that are not dead form a ring with the current one, and the dead ones are on
the list of the reaper, but for the one that it is giving back. -/
structure QueueInv (s : Scheduler) : Prop where
  ring : ∃ rest, Ring (s.link Task.next) (s.link Task.prev) s.currentTask rest ∧
    ∀ p, p ∈ s.currentTask :: rest ↔ s.Alive p
  dead : ∃ l, Threaded (s.link Task.reaperNext) s.deadTasksHead l ∧
    ∀ p, p ∈ l ↔ s.Dead p ∧ s.reaped ≠ some p
  reaped : ∀ p, s.reaped = some p → s.Dead p

theorem Alive.task_ne_none (h : s.Alive p) : s.task p ≠ none := by
  obtain ⟨t, ht, -⟩ := h
  simp [ht]

theorem QueueInv.current (h : QueueInv s) : s.Alive s.currentTask := by
  obtain ⟨rest, -, hmem⟩ := h.ring
  exact (hmem _).mp (by simp)

/-- The ring from a task other than the current one. -/
theorem QueueInv.ring_from (h : QueueInv s) (hc : s.Alive c) (hne : c ≠ s.currentTask) :
    ∃ rest, Ring (s.link Task.next) (s.link Task.prev) c rest ∧ rest ≠ [] ∧
      s.currentTask ∈ rest ∧ ∀ p, p ∈ c :: rest ↔ s.Alive p := by
  obtain ⟨rest, hr, hmem⟩ := h.ring
  obtain ⟨ys, hr', hmem'⟩ := hr.from_mem ((hmem c).mpr hc)
  have hcur : s.currentTask ∈ c :: ys := (hmem' _).mpr (by simp)
  have hin : s.currentTask ∈ ys := (List.mem_cons.mp hcur).resolve_left hne.symm
  exact ⟨ys, hr', List.ne_nil_of_mem hin, hin, fun p => (hmem' p).trans (hmem p)⟩

/-- Writing fields that are not of the queue. -/
theorem QueueInv.withTask (h : QueueInv s) (ht : s.task p = some t)
    (hnext : t'.next = t.next) (hprev : t'.prev = t.prev)
    (hreaper : t'.reaperNext = t.reaperNext) (hstate : t'.state = .dead ↔ t.state = .dead) :
    QueueInv (s.withTask p t') := by
  constructor
  case ring =>
    obtain ⟨rest, hr, hmem⟩ := h.ring
    rw [link_withTask_same ht hnext, link_withTask_same ht hprev]
    exact ⟨rest, hr, fun q => (hmem q).trans (alive_withTask_same ht hstate).symm⟩
  case dead =>
    obtain ⟨l, hl, hmem⟩ := h.dead
    rw [link_withTask_same ht hreaper]
    refine ⟨l, hl, fun q => ?_⟩
    rw [hmem, dead_withTask_same ht hstate, withTask_reaped]
  case reaped =>
    intro q hq
    exact (dead_withTask_same ht hstate).mpr (h.reaped q hq)

/-- A task leaves the ring and becomes the head of the list of the reaper. -/
theorem QueueInv.bury (h : QueueInv s) (hc : s.Alive c) (hne : c ≠ s.currentTask)
    (hcurrent : s'.currentTask = s.currentTask)
    (hbefore : ∀ w, s.link Task.prev c = some w → s'.link Task.next w = s.link Task.next c)
    (hafter : ∀ w, s.link Task.next c = some w → s'.link Task.prev w = s.link Task.prev c)
    (hnext : ∀ w, w ≠ c → s.link Task.prev c ≠ some w →
      s'.link Task.next w = s.link Task.next w)
    (hprev : ∀ w, w ≠ c → s.link Task.next c ≠ some w →
      s'.link Task.prev w = s.link Task.prev w)
    (halive : ∀ q, s'.Alive q ↔ s.Alive q ∧ q ≠ c) (hdead : ∀ q, s'.Dead q ↔ s.Dead q ∨ q = c)
    (hreaped : s'.reaped = s.reaped)
    (hhead : s'.deadTasksHead = some c) (hself : s'.link Task.reaperNext c = s.deadTasksHead)
    (hreaper : ∀ q, q ≠ c → s'.link Task.reaperNext q = s.link Task.reaperNext q) :
    QueueInv s' := by
  constructor
  case ring =>
    obtain ⟨rest, hr, hrest, hin, hmem⟩ := h.ring_from hc hne
    obtain ⟨y, ys, rfl⟩ := List.exists_cons_of_ne_nil hrest
    have hr' := hr.remove hbefore hafter hnext hprev
    obtain ⟨zs, hr'', hmem'⟩ := hr'.from_mem hin
    have hnotin := (List.nodup_cons.mp hr.nodup).1
    refine ⟨zs, hcurrent ▸ hr'', fun p => ?_⟩
    rw [hcurrent, hmem', halive, ← hmem]
    constructor
    · intro hp
      exact ⟨List.mem_cons_of_mem _ hp, fun e => hnotin (e ▸ hp)⟩
    · rintro ⟨hp, hpc⟩
      exact (List.mem_cons.mp hp).resolve_left hpc
  case dead =>
    obtain ⟨l, hl, hmem⟩ := h.dead
    refine ⟨c :: l, ?_, fun p => ?_⟩
    · rw [hhead]
      apply hl.push hself
      intro q hq
      apply hreaper
      rintro rfl
      exact hc.not_dead ((hmem q).mp hq).1
    · rw [List.mem_cons, hmem, hdead, hreaped]
      constructor
      · rintro (rfl | ⟨hp, hr⟩)
        · exact ⟨Or.inr rfl, fun hr => hc.not_dead (h.reaped _ hr)⟩
        · exact ⟨Or.inl hp, hr⟩
      · rintro ⟨hp | rfl, hr⟩
        · exact Or.inr ⟨hp, hr⟩
        · exact Or.inl rfl
  case reaped =>
    intro p hp
    exact (hdead p).mpr (Or.inl (h.reaped p (hreaped ▸ hp)))

/-- The task at `c` is dead and heads the list of the reaper; of the others only queue
pointers have changed. -/
structure Buried (s s' : Scheduler) (c : Pcb) : Prop where
  frame : { s' with task := s.task, deadTasksHead := s.deadTasksHead } = s
  other : ∀ p, p ≠ c → (s'.task p).map Task.unlinked = (s.task p).map Task.unlinked
  self : ∃ t t', s.task c = some t ∧ s'.task c = some t' ∧ t'.state = .dead ∧ t'.traits = t.traits

theorem link_congr (h : s'.task p = s.task p) : s'.link g p = s.link g p := by
  simp [link, h]

theorem alive_congr (h : s'.task p = s.task p) : s'.Alive p ↔ s.Alive p := by
  simp [Alive, h]

theorem dead_congr (h : s'.task p = s.task p) : s'.Dead p ↔ s.Dead p := by
  simp [Dead, h]

theorem Relinked.buried_other (h : Relinked s s') (hs : s.task p = s''.task p) :
    (s'.task p).map Task.unlinked = (s''.task p).map Task.unlinked := by
  rw [← hs]
  exact h.task p

/-- The end of the two ways to the reaper: `c` has been bypassed between `s₀` and
`s₁`, which differ from the start and from the end in `c` alone. -/
theorem QueueInv.of_bypassed {s₀ s₁ : Scheduler} (h : QueueInv s) (ht : s.task c = some t)
    (hlive : t.state ≠ .dead) (hne : c ≠ s.currentTask)
    (hb : Bypassed s₀ s₁ c) (h₀ : ∀ p, p ≠ c → s₀.task p = s.task p)
    (hnext₀ : s₀.link Task.next = s.link Task.next) (hprev₀ : s₀.link Task.prev = s.link Task.prev)
    (h₁ : ∀ p, p ≠ c → s'.task p = s₁.task p) (ht' : s'.task c = some t')
    (hdead : t'.state = .dead) (htraits : t'.traits = t.traits) (hreaper : t'.reaperNext = s.deadTasksHead)
    (hhead : s'.deadTasksHead = some c)
    (hframe : { s' with task := s.task, deadTasksHead := s.deadTasksHead } = s) :
    Buried s s' c ∧ QueueInv s' := by
  have hother : ∀ p, p ≠ c → (s'.task p).map Task.unlinked = (s.task p).map Task.unlinked := by
    intro p hp
    rw [h₁ p hp]
    exact hb.relinked.buried_other (h₀ p hp)
  have hlink : ∀ (g : Task → Option Pcb) p, p ≠ c → s'.link g p = s₁.link g p :=
    fun g p hp => link_congr (h₁ p hp)
  have hstate : ∀ p, p ≠ c → (s'.Alive p ↔ s.Alive p) ∧ (s'.Dead p ↔ s.Dead p) := by
    intro p hp
    refine ⟨(alive_congr (h₁ p hp)).trans (hb.relinked.alive.trans (alive_congr (h₀ p hp))),
      (dead_congr (h₁ p hp)).trans (hb.relinked.dead.trans (dead_congr (h₀ p hp)))⟩
  refine ⟨⟨hframe, hother, t, t', ht, ht', hdead, htraits⟩, ?_⟩
  have hself : ∀ w, s.link Task.next c = some w → w ≠ c := by
    rintro w hw rfl
    obtain ⟨rest, hr, hrest, -, -⟩ := h.ring_from ⟨t, ht, hlive⟩ hne
    obtain ⟨y, ys, rfl⟩ := List.exists_cons_of_ne_nil hrest
    rw [hr.next_cons, Option.some.injEq] at hw
    exact (List.nodup_cons.mp hr.nodup).1 (by simp [hw])
  have hself' : ∀ w, s.link Task.prev c = some w → w ≠ c := by
    rintro w hw rfl
    obtain ⟨rest, hr, -, -, -⟩ := h.ring_from ⟨t, ht, hlive⟩ hne
    obtain ⟨z, -, hz, hback⟩ := hr.prev_mem (y := w) (by simp)
    obtain rfl : w = z := Option.some.inj (hw.symm.trans hz)
    exact hself w hback rfl
  apply h.bury ⟨t, ht, hlive⟩ hne
  · exact (congrArg Scheduler.currentTask hframe :)
  · intro w hw
    rw [hlink _ w (hself' w hw), ← hnext₀]
    exact hb.before w (hprev₀ ▸ hw)
  · intro w hw
    rw [hlink _ w (hself w hw), ← hprev₀]
    exact hb.after w (hnext₀ ▸ hw)
  · intro w hwc hw
    rw [hlink _ w hwc, ← hnext₀]
    exact hb.next w hwc (hprev₀ ▸ hw)
  · intro w hwc hw
    rw [hlink _ w hwc, ← hprev₀]
    exact hb.prev w hwc (hnext₀ ▸ hw)
  · intro q
    by_cases hq : q = c
    · subst hq
      simp [Alive, ht', hdead]
    · simp [hq, (hstate q hq).1]
  · intro q
    by_cases hq : q = c
    · subst hq
      simp [Dead, ht', hdead]
    · simp [hq, (hstate q hq).2]
  · exact (congrArg Scheduler.reaped hframe :)
  · exact hhead
  · rw [link_of_task ht', hreaper]
  · intro q hq
    rw [hlink _ q hq, hb.relinked.link_eq fun _ => rfl]
    exact link_congr (h₀ q hq)

/-- A child of the task that goes ends on the list of the reaper. -/
theorem killChild_spec (h : QueueInv s) (hc : s.Alive c) (hne : c ≠ s.currentTask) :
    ∃ s', s.killChild c = some s' ∧ Buried s s' c ∧ QueueInv s' := by
  obtain ⟨rest, hr, hrest, hin, hmem⟩ := h.ring_from hc hne
  obtain ⟨t, ht, hlive⟩ := hc
  let t₀ : Task := { t with state := .dead, exitCode := -1 }
  let s₀ := s.withTask c t₀
  have hnext₀ : s₀.link Task.next = s.link Task.next := link_withTask_same ht rfl
  have hprev₀ : s₀.link Task.prev = s.link Task.prev := link_withTask_same ht rfl
  have ht₀ : s₀.task c = some t₀ := withTask_task_self
  have hmem₀ : ∀ p ∈ c :: rest, s₀.task p ≠ none := by
    intro p hp
    by_cases hpc : p = c
    · rw [hpc, ht₀]
      simp
    · rw [withTask_task_of_ne hpc]
      exact ((hmem p).mp hp).task_ne_none
  have hr₀ : Ring (s₀.link Task.next) (s₀.link Task.prev) c rest := by
    rw [hnext₀, hprev₀]
    exact hr
  obtain ⟨s₁, hbypass, hb⟩ := bypass_spec hr₀ hrest hmem₀
  have hguard : t₀.next ≠ none ∧ t₀.prev ≠ none ∧ t₀.next ≠ some c := by
    obtain ⟨after, -, hafter, -⟩ := hr.next_mem (y := c) (by simp)
    obtain ⟨before, -, hbefore, -⟩ := hr.prev_mem (y := c) (by simp)
    rw [link_of_task ht] at hafter hbefore
    refine ⟨by simp [t₀, hafter], by simp [t₀, hbefore], ?_⟩
    obtain ⟨y, ys, rfl⟩ := List.exists_cons_of_ne_nil hrest
    have hy := hr.next_cons
    rw [link_of_task ht] at hy
    intro hcc
    have hyc : y = c := Option.some.inj (hy.symm.trans hcc)
    exact (List.nodup_cons.mp hr.nodup).1 (by simp [hyc])
  have ht₁ : s₁.task c = some t₀ := hb.self.trans ht₀
  let t₂ : Task := { t₀ with next := some c, prev := some c }
  let s₂ := s₁.withTask c t₂
  have ht₂ : s₂.task c = some t₂ := withTask_task_self
  let t₃ : Task := { t₂ with reaperNext := s₂.deadTasksHead }
  let s₃ : Scheduler := { s₂.withTask c t₃ with deadTasksHead := some c }
  have hhead : s₂.deadTasksHead = s.deadTasksHead := hb.relinked.deadTasksHead
  refine ⟨s₃, ?_, ?_⟩
  · have hremove : s₀.queueRemove c = some s₂ := by
      simp only [queueRemove, ht₀, Option.bind_eq_bind, Option.bind_some, if_pos hguard, hbypass,
        set_of_task ht₁]
      rfl
    have hpush : s₂.pushDead c = some s₃ := by
      simp only [pushDead, Option.bind_eq_bind, set_of_task ht₂, Option.bind_some]
      rfl
    simp only [killChild, Option.bind_eq_bind, set_of_task ht, Option.bind_some]
    rw [show s.withTask c { t with state := .dead, exitCode := -1 } = s₀ from rfl, hremove,
      Option.bind_some, hpush]
  · have ht₃ : s₃.task c = some t₃ := withTask_task_self
    refine h.of_bypassed ht hlive hne hb (fun p hp => withTask_task_of_ne hp) hnext₀ hprev₀ ?_ ht₃
      rfl rfl hhead rfl ?_
    · intro p hp
      exact (withTask_task_of_ne hp).trans (withTask_task_of_ne hp)
    · have hframe := hb.relinked.frame
      exact (congrArg (fun x : Scheduler =>
        { x with task := s.task, deadTasksHead := s.deadTasksHead }) hframe :)

end Scheduler
end EnclaveOS
