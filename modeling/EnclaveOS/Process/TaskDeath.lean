import EnclaveOS.Process.TaskBirth

/-!
# TaskDeath - tasks that exit, wait and are collected

What `task_exit`, `task_kill_current` and `task_waitpid` do when the current
task is not one with pid 1: its children go to Init or to the reaper, it becomes a
zombie, and a parent that waits hands the zombie to the reaper.
-/

namespace EnclaveOS

/-- A task without the pointers to its children and its next sibling. -/
def Task.lone (t : Task) : Task := { t with children := none, nextSibling := none }

theorem Task.lone_eq {β : Type*} {t t' : Task} (h : t'.lone = t.lone) (g : Task → β)
    (hg : ∀ t, g (Task.lone t) = g t) : g t' = g t := by
  rw [← hg t', h, hg]

namespace Scheduler

variable {s s' s₁ : Scheduler} {p q c pcb : Pcb} {t t' u cur : Task}

/-- What the way out of a task leaves alone in the variables of the scheduler. -/
structure SameFrame (s s' : Scheduler) : Prop where
  currentTask : s'.currentTask = s.currentTask
  mainTask : s'.mainTask = s.mainTask
  initTask : s'.initTask = s.initTask
  reaped : s'.reaped = s.reaped
  phase : s'.phase = s.phase
  tickCount : s'.tickCount = s.tickCount
  nextPid : s'.nextPid = s.nextPid

theorem SameFrame.trans {s'' : Scheduler} (h : SameFrame s s') (h' : SameFrame s' s'') :
    SameFrame s s'' :=
  ⟨h'.currentTask.trans h.currentTask, h'.mainTask.trans h.mainTask,
    h'.initTask.trans h.initTask, h'.reaped.trans h.reaped, h'.phase.trans h.phase,
    h'.tickCount.trans h.tickCount, h'.nextPid.trans h.nextPid⟩

theorem Culled.sameFrame {rank : Pcb → Nat} {k : Nat} (h : Culled rank k s s') :
    SameFrame s s' := by
  have hf := h.frame
  exact ⟨(congrArg Scheduler.currentTask hf :), (congrArg Scheduler.mainTask hf :),
    (congrArg Scheduler.initTask hf :), (congrArg Scheduler.reaped hf :),
    (congrArg Scheduler.phase hf :), (congrArg Scheduler.tickCount hf :),
    (congrArg Scheduler.nextPid hf :)⟩

/-! ## Adoption -/

/-- The first child of the current task becomes the first child of Init. -/
theorem adoptChild_spec (h : TaskInv s) (hcur : s.task s.currentTask = some cur)
    (hactive : cur.Active) (hmain : s.currentTask ≠ s.mainTask) (hpid : cur.pid ≠ 1)
    (hfirst : cur.children = some c) :
    ∃ s', s.adoptChild c = some s' ∧ TaskInv s' ∧ SameFrame s s' ∧
      (∃ cur', s'.task s.currentTask = some cur' ∧ cur'.childless = cur.childless ∧
        cur'.children = s.link Task.nextSibling c) ∧ (∀ q, s'.Alive q → s.Alive q) ∧
      (∀ q, q ≠ c → s'.link Task.parent q = s.link Task.parent q) ∧
      s'.link Task.parent c = some s.initTask := by
  have hcalive : s.Alive s.currentTask := ⟨cur, hcur, hactive.2⟩
  have hhead : s.link Task.children s.currentTask = some c := by
    rw [link_of_task hcur, hfirst]
  obtain ⟨⟨t, ht, hlive⟩, hparent⟩ := h.family.tree.child_parent hcalive hhead
  rw [link_of_task ht] at hparent
  obtain ⟨i, hi, hipid, hiz, hil, hiparent⟩ := h.roles.init
  obtain ⟨m, hm, hmpid, hmstate, hmparent⟩ := h.roles.main
  have hinit : s.initTask ≠ s.currentTask := by
    intro e
    rw [e, hcur, Option.some.injEq] at hi
    exact hpid (hi ▸ hipid)
  have hcc : c ≠ s.currentTask :=
    (h.family.tree.ne_parent ⟨t, ht, hlive⟩ (by rw [link_of_task ht, hparent])).symm
  have hci : c ≠ s.initTask := by
    rintro rfl
    rw [ht] at hi
    cases hi
    rcases hiparent with hp | hp
    · simp [hparent] at hp
    · rw [hparent, Option.some.injEq] at hp
      exact hmain hp
  have hcm : c ≠ s.mainTask := by
    rintro rfl
    rw [ht] at hm
    cases hm
    simp [hparent] at hmparent
  let cur' : Task := { cur with children := t.nextSibling }
  let s₁ := s.withTask s.currentTask cur'
  have hi₁ : s₁.task s.initTask = some i := by rw [withTask_task_of_ne hinit, hi]
  have ht₁ : s₁.task c = some t := by rw [withTask_task_of_ne hcc, ht]
  let t' : Task := { t with parent := some s.initTask, nextSibling := i.children }
  let s₂ := s₁.withTask c t'
  have hi₂ : s₂.task s.initTask = some i := by rw [withTask_task_of_ne hci.symm, hi₁]
  let i' : Task := { i with children := some c }
  let s₃ := s₂.withTask s.initTask i'
  let s' := s₃.note (.adopted i.birth t.birth)
  have htask_c : s'.task c = some t' := (withTask_task_of_ne hci).trans withTask_task_self
  have htask_i : s'.task s.initTask = some i' := withTask_task_self
  have htask_cur : s'.task s.currentTask = some cur' :=
    (withTask_task_of_ne hinit.symm).trans
      ((withTask_task_of_ne hcc.symm).trans withTask_task_self)
  have htask : ∀ q, q ≠ c → q ≠ s.initTask → q ≠ s.currentTask → s'.task q = s.task q := by
    intro q hqc hqi hqcur
    exact (withTask_task_of_ne hqi).trans
      ((withTask_task_of_ne hqc).trans (withTask_task_of_ne hqcur))
  -- fields other than those of the tree
  have hfield : ∀ {β : Type} (g : Task → β),
      (∀ t x y z, g { t with children := x, parent := y, nextSibling := z } = g t) →
      ∀ q, (s'.task q).map g = (s.task q).map g := by
    intro β g hg q
    by_cases hqc : q = c
    · subst hqc
      rw [htask_c, ht, Option.map_some, Option.map_some]
      exact congrArg some (hg t t.children _ _)
    · by_cases hqi : q = s.initTask
      · subst hqi
        rw [htask_i, hi, Option.map_some, Option.map_some]
        exact congrArg some (hg i _ i.parent i.nextSibling)
      · by_cases hqcur : q = s.currentTask
        · subst hqcur
          rw [htask_cur, hcur, Option.map_some, Option.map_some]
          exact congrArg some (hg cur _ cur.parent cur.nextSibling)
        · rw [htask q hqc hqi hqcur]
  have hparent' : ∀ q, q ≠ c → s'.link Task.parent q = s.link Task.parent q := by
    intro q hqc
    by_cases hqi : q = s.initTask
    · rw [hqi, link_of_task htask_i, link_of_task hi]
    · by_cases hqcur : q = s.currentTask
      · rw [hqcur, link_of_task htask_cur, link_of_task hcur]
      · exact link_congr (htask q hqc hqi hqcur)
  have hchildren' : ∀ q, q ≠ s.initTask → q ≠ s.currentTask →
      s'.link Task.children q = s.link Task.children q := by
    intro q hqi hqcur
    by_cases hqc : q = c
    · rw [hqc, link_of_task htask_c, link_of_task ht]
    · exact link_congr (htask q hqc hqi hqcur)
  have hqueue : QueueInv s' := by
    have h₁ : QueueInv s₁ := h.queue.withTask hcur rfl rfl rfl Iff.rfl
    have h₂ : QueueInv s₂ := h₁.withTask ht₁ rfl rfl rfl Iff.rfl
    have h₃ : QueueInv s₃ := h₂.withTask hi₂ rfl rfl rfl Iff.rfl
    exact ⟨h₃.ring, h₃.dead, h₃.reaped⟩
  have halive : ∀ q, s'.Alive q ↔ s.Alive q :=
    fun q => alive_of_state (hfield Task.state (fun _ _ _ _ => rfl) q)
  have hcases : ∀ q v, s'.task q = some v → ∃ w, s.task q = some w ∧ v.state = w.state ∧
      v.traits = w.traits ∧ v.exitCode = w.exitCode ∧ (q ≠ c → v.parent = w.parent) := by
    intro q v hv
    have hst := hfield (fun t => (t.state, t.traits, t.exitCode)) (fun _ _ _ _ => rfl) q
    rw [hv] at hst
    obtain ⟨w, hw, he⟩ := Option.map_eq_some_iff.mp hst.symm
    simp only [Prod.mk.injEq] at he
    refine ⟨w, hw, he.1.symm, he.2.1.symm, he.2.2.symm, fun hqc => ?_⟩
    have := hparent' q hqc
    rwa [link_of_task hv, link_of_task hw] at this
  refine ⟨s', ?_, ?_, ⟨rfl, rfl, rfl, rfl, rfl, rfl, rfl⟩, ⟨cur', htask_cur, rfl, ?_⟩,
    fun q hq => (halive q).mp hq, hparent', ?_⟩
  · simp only [adoptChild, ht, Option.bind_eq_bind, Option.bind_some, set_of_task hcur]
    rw [show s.withTask s.currentTask { cur with children := t.nextSibling } = s₁ from rfl]
    rw [if_pos (show s₁.initTask ≠ s₁.currentTask from hinit)]
    rw [show s₁.initTask = s.initTask from rfl, hi₁, Option.bind_some, set_of_task ht₁,
      Option.bind_some, show (s₁.withTask c { t with
        parent := some s.initTask, nextSibling := i.children }) = s₂ from rfl,
      show s₂.initTask = s.initTask from rfl, set_of_task hi₂]
    rfl
  · constructor
    case queue => exact hqueue
    case family =>
      constructor
      case tree =>
        have htree : KinTree (s'.link Task.children) (s'.link Task.nextSibling)
            (s'.link Task.parent) s.Alive := by
          apply h.family.tree.adopt hcalive ⟨i, hi, hil⟩ hinit.symm hhead
          · -- Init is a root or a child of the root that runs kernel_main
            have hpi := hparent' s.initTask hci.symm
            rw [link_of_task hi] at hpi
            rcases hiparent with hp | hp
            · exact ⟨0, .root (hpi.trans hp)⟩
            · have hpm := hparent' s.mainTask hcm.symm
              rw [link_of_task hm, hmparent] at hpm
              exact ⟨1, .child (hpi.trans hp) (.root hpm)⟩
          · rw [link_of_task htask_cur, link_of_task ht]
          · rw [link_of_task htask_i]
          · rw [link_of_task htask_c, link_of_task hi]
          · rw [link_of_task htask_c]
          · intro a _ hac hai
            exact hchildren' a hai hac
          · intro a _ hac
            by_cases hai : a = s.initTask
            · rw [hai, link_of_task htask_i, link_of_task hi]
            · by_cases hacur : a = s.currentTask
              · rw [hacur, link_of_task htask_cur, link_of_task hcur]
              · exact link_congr (htask a hac hai hacur)
          · intro a _ hac
            exact hparent' a hac
        exact htree.congr halive (fun _ _ => rfl) (fun _ _ => rfl) fun _ _ => rfl
      case zombie =>
        intro q v hv hz
        obtain ⟨w, hw, hst, -⟩ := hcases q v hv
        rw [hst] at hz
        rw [hchildren', h.family.zombie q w hw hz]
        · rintro rfl
          rw [hi, Option.some.injEq] at hw
          exact hiz (hw ▸ hz)
        · rintro rfl
          rw [hcur, Option.some.injEq] at hw
          exact hactive.1 (hw ▸ hz)
    case roles =>
      constructor
      case limit =>
        intro q v hv
        obtain ⟨w, hw, -⟩ := hcases q v hv
        exact h.roles.limit q w hw
      case main =>
        obtain ⟨m', hm', he⟩ := Option.map_eq_some_iff.mp
          ((hfield (fun t => (t.pid, t.state)) (fun _ _ _ _ => rfl) s.mainTask).trans
            (congrArg _ hm))
        simp only [Prod.mk.injEq] at he
        refine ⟨m', hm', he.1.trans hmpid, he.2 ▸ hmstate, ?_⟩
        have := hparent' s.mainTask hcm.symm
        rwa [link_of_task hm', link_of_task hm, hmparent] at this
      case init =>
        exact ⟨i', htask_i, hipid, hiz, hil, hiparent⟩
      case root =>
        intro q v hv hl hroot
        obtain ⟨w, hw, hst, htr, -, hpar⟩ := hcases q v hv
        have hqc : q ≠ c := by
          rintro rfl
          rw [htask_c] at hv
          cases hv
          simp [t'] at hroot
        rw [show v.pid = w.pid from congrArg Prod.fst htr]
        exact h.roles.root q w hw (hst ▸ hl) (hpar hqc ▸ hroot)
      case policy =>
        intro q v hv
        obtain ⟨w, hw, -, htr, -⟩ := hcases q v hv
        rw [show v.orphanOnExit = w.orphanOnExit from congrArg (fun x => x.2.2.2.1) htr,
          show v.monitorChildren = w.monitorChildren from congrArg (fun x => x.2.2.2.2) htr]
        exact h.roles.policy q w hw
    case supply =>
      refine h.supply.congr ?_ ?_ fun q v hv => ?_
      · rfl
      · rfl
      · obtain ⟨w, hw, -, htr, -⟩ := hcases q v hv
        exact ⟨w, hw, htr⟩
    case ledger =>
      -- the other two edits first, then the one that changes the parent
      have ha₁ : Aged s s₁ := Aged.withTask hcur (.of_childless rfl)
      have ha₃ : Aged s₁ (s₁.withTask s.initTask i') := Aged.withTask hi₁ (.of_childless rfl)
      have hsup := (h.supply.aged ha₁).aged ha₃
      have hled := (h.ledger.aged ha₁).aged ha₃
      have ht₃ : (s₁.withTask s.initTask i').task c = some t := by
        rw [withTask_task_of_ne hci, ht₁]
      have hlast : LedgerInv (((s₁.withTask s.initTask i').withTask c t').note
          (.adopted i'.birth t.birth)) :=
        hled.adopted hsup ht₃ withTask_task_self rfl rfl rfl rfl
      have hswap : ((s₁.withTask s.initTask i').withTask c t').note
          (.adopted i'.birth t.birth) = s' := by
        simp only [s', s₃, s₂, withTask]
        rw [Function.update_comm hci]
      rw [← hswap]
      exact hlast
  · rw [link_of_task ht]
  · rw [link_of_task htask_c]

/-- `task_exit` hands all children of the current task to Init. -/
theorem adoptChildren_spec (fuel : Nat) (h : TaskInv s) (hcur : s.task s.currentTask = some cur)
    (hactive : cur.Active) (hmain : s.currentTask ≠ s.mainTask) (hpid : cur.pid ≠ 1)
    {l : List Pcb} (hl : ∀ q, s.Alive q → s.link Task.parent q = some s.currentTask → q ∈ l)
    (hfuel : l.length < fuel) :
    ∃ s', adoptChildren fuel s = some s' ∧ TaskInv s' ∧ SameFrame s s' ∧
      ∃ cur', s'.task s.currentTask = some cur' ∧ cur'.childless = cur.childless ∧
        cur'.children = none := by
  induction fuel generalizing s cur l with
  | zero => omega
  | succ fuel ih =>
    cases hfirst : cur.children with
    | none =>
      refine ⟨s, ?_, h, ⟨rfl, rfl, rfl, rfl, rfl, rfl, rfl⟩, cur, hcur, rfl, hfirst⟩
      simp only [adoptChildren, hcur, Option.bind_eq_bind, Option.bind_some, hfirst]
    | some c =>
      obtain ⟨s₁, hrun, h₁, hframe, ⟨cur₁, hcur₁, he₁, -⟩, halive, hparent, hadopted⟩ :=
        adoptChild_spec h hcur hactive hmain hpid hfirst
      have hc := h.family.tree.child_parent ⟨cur, hcur, hactive.2⟩
        (by rw [link_of_task hcur, hfirst])
      have hcl : c ∈ l := hl c hc.1 hc.2
      have hinit : s.initTask ≠ s.currentTask := by
        obtain ⟨i, hi, hipid, -⟩ := h.roles.init
        intro e
        rw [e, hcur, Option.some.injEq] at hi
        exact hpid (hi ▸ hipid)
      have hstate : cur₁.state = cur.state := Task.childless_eq he₁ Task.state fun _ => rfl
      have hl₁ : ∀ q, s₁.Alive q → s₁.link Task.parent q = some s₁.currentTask →
          q ∈ l.erase c := by
        intro q hq hqp
        rw [hframe.currentTask] at hqp
        by_cases hqc : q = c
        · rw [hqc, hadopted, Option.some.injEq] at hqp
          exact absurd hqp hinit
        · rw [hparent q hqc] at hqp
          exact (List.mem_erase_of_ne hqc).mpr (hl q (halive q hq) hqp)
      have hlen : (l.erase c).length < fuel := by
        have hpos := List.length_pos_of_mem hcl
        rw [List.length_erase_of_mem hcl]
        omega
      obtain ⟨s₂, hloop, h₂, hframe₂, cur₂, hcur₂, he₂, hnone⟩ :=
        ih h₁ (hframe.currentTask ▸ hcur₁) (by simpa [Task.Active, hstate] using hactive)
          (by rw [hframe.currentTask, hframe.mainTask]; exact hmain)
          (by rwa [Task.childless_eq he₁ Task.pid fun _ => rfl]) hl₁ hlen
      refine ⟨s₂, ?_, h₂, hframe.trans hframe₂, cur₂, hframe.currentTask ▸ hcur₂,
        he₂.trans he₁, hnone⟩
      simp only [adoptChildren, hcur, Option.bind_eq_bind, Option.bind_some, hfirst, hrun, hloop]

/-! ## The cascade from the current task -/

/-- The cascade from the current task ends with nothing left below it. -/
theorem cleanupCurrent_culled (h : TaskInv s) (hcur : s.task s.currentTask = some cur)
    (hlive : cur.state ≠ .dead) :
    ∃ rank s₁ v, (∀ q, s.Alive q → s.link Task.parent q = none → rank q = 0) ∧
      (∀ p q, s.Alive q → s.link Task.parent q = some p → rank q = rank p + 1) ∧
      cleanupFrom (taskLimit + 1) s cur.children = some s₁ ∧
      Culled rank (rank s.currentTask) s s₁ ∧ QueueInv s₁ ∧
      FamilyInv (Function.update (s.link Task.children) s.currentTask none) s₁ ∧
      s₁.task s.currentTask = some v ∧ v.unlinked = cur.unlinked := by
  obtain ⟨rank, hroot, hrank⟩ := h.family.tree.exists_rank
  have hcascade : Cascade rank (s.link Task.children) s.currentTask s := by
    refine ⟨h.queue, h.family, ?_, ⟨cur, hcur, hlive⟩, Nat.le_refl _, hrank, fun _ _ _ => rfl⟩
    rintro p ⟨t, ht, -⟩
    exact h.roles.limit p t ht
  obtain ⟨s₁, hrun, hculled, hq₁, hf₁⟩ := cleanupFrom_spec (taskLimit + 1) hcascade
    (Nat.lt_succ_of_le below_card_le)
  rw [link_of_task hcur] at hrun
  obtain ⟨v, hv, hvc⟩ := hculled.exists_kept (Nat.le_refl _) hcur
  exact ⟨rank, s₁, v, hroot, hrank, hrun, hculled, hq₁, hf₁, hv, hvc⟩

/-- `task_cleanup_children_on_exit` for the current task: Init and the task of
`kernel_main` are not below it. -/
theorem cleanupCurrent_spec (h : TaskInv s) (hcur : s.task s.currentTask = some cur)
    (hactive : cur.Active) (hpid : cur.pid ≠ 1) :
    ∃ s', s.taskCleanupChildrenOnExit s.currentTask = some s' ∧ TaskInv s' ∧ SameFrame s s' ∧
      ∃ cur', s'.task s.currentTask = some cur' ∧ cur'.childless = cur.childless ∧
        cur'.children = none := by
  have hcalive : s.Alive s.currentTask := ⟨cur, hcur, hactive.2⟩
  obtain ⟨rank, s₁, v, hroot, hrank, hrun, hculled, hq₁, hf₁, hv, hvc⟩ :=
    cleanupCurrent_culled h hcur hactive.2
  let cur' : Task := { v with children := none }
  let s' := s₁.withTask s.currentTask cur'
  have hages : v.Ages cur' := ⟨rfl, by
    by_cases hd : v.state = .dead
    · exact Or.inl hd
    · exact Or.inr ⟨hd, rfl, rfl, Iff.rfl⟩⟩
  have haged : Aged s s' := hculled.aged.trans (.withTask hv hages)
  -- the current task has a parent, so that Init is not below it
  have hdeep : 0 < rank s.currentTask := by
    cases hp : cur.parent with
    | none => exact absurd (h.roles.root _ cur hcur hactive.2 hp) hpid
    | some p =>
      have := hrank p s.currentTask hcalive (by rw [link_of_task hcur, hp])
      omega
  have hkept : ∀ p t, s.task p = some t → rank p ≤ rank s.currentTask →
      ∃ t', s'.task p = some t' ∧ t'.state = t.state := by
    intro p t ht hp
    obtain ⟨t₁, ht₁, he⟩ := hculled.exists_kept hp ht
    have hstate := Task.field_eq he Task.state fun _ => rfl
    by_cases hpc : p = s.currentTask
    · subst hpc
      rw [hv] at ht₁
      cases ht₁
      exact ⟨cur', withTask_task_self, hstate⟩
    · exact ⟨t₁, (withTask_task_of_ne hpc).trans ht₁, hstate⟩
  obtain ⟨m, hm, -, hmstate, hmparent⟩ := h.roles.main
  obtain ⟨i, hi, -, -, hil, hiparent⟩ := h.roles.init
  have hmalive : s.Alive s.mainTask := by
    refine ⟨m, hm, ?_⟩
    rcases hmstate with h | h <;> simp [h]
  have hmrank : rank s.mainTask = 0 := hroot _ hmalive (by rw [link_of_task hm, hmparent])
  have hirank : rank s.initTask ≤ 1 := by
    rcases hiparent with hp | hp
    · rw [hroot _ ⟨i, hi, hil⟩ (by rw [link_of_task hi, hp])]
      exact Nat.zero_le 1
    · rw [hrank _ _ ⟨i, hi, hil⟩ (by rw [link_of_task hi, hp]), hmrank]
  refine ⟨s', ?_, ?_, ?_, cur', withTask_task_self, ?_, rfl⟩
  · simp only [taskCleanupChildrenOnExit, hcur, Option.bind_eq_bind, Option.bind_some, hrun,
      set_of_task hv]
    rfl
  · constructor
    case queue => exact hq₁.withTask hv rfl rfl rfl Iff.rfl
    case family =>
      have hf' : FamilyInv (Function.update (s.link Task.children) s.currentTask none) s' :=
        hf₁.withTask hv rfl rfl rfl
      apply hf'.congr
      intro p hp
      by_cases hpc : p = s.currentTask
      · rw [hpc, Function.update_self]
        exact link_of_task withTask_task_self
      · rw [Function.update_of_ne hpc]
        have hp₁ : s₁.Alive p := (alive_congr (withTask_task_of_ne hpc)).mp hp
        exact (link_congr (withTask_task_of_ne hpc)).trans (hculled.link_eq hp₁ fun _ => rfl)
    case roles =>
      apply h.roles.aged haged
      · intro m' hm'
        obtain ⟨m'', hm'', hst⟩ := hkept _ m hm (by omega)
        rw [hm', Option.some.injEq] at hm''
        rw [hm'', hst]
        exact hmstate
      · intro i' hi'
        obtain ⟨i'', hi'', hst⟩ := hkept _ i hi (by omega)
        rw [hi', Option.some.injEq] at hi''
        rw [hi'', hst]
        exact hil
    case supply => exact h.supply.aged haged
    case ledger => exact h.ledger.aged haged
  · exact hculled.sameFrame.trans ⟨rfl, rfl, rfl, rfl, rfl, rfl, rfl⟩
  · exact Task.field_eq hvc Task.childless fun _ => rfl

/-- The children of the current task are gone, one way or the other. -/
theorem leaveChildren_spec (h : TaskInv s) (hcur : s.task s.currentTask = some cur)
    (hactive : cur.Active) (hmain : s.currentTask ≠ s.mainTask) (hpid : cur.pid ≠ 1) :
    ∃ s', s.leaveChildren = some s' ∧ TaskInv s' ∧ SameFrame s s' ∧
      ∃ cur', s'.task s.currentTask = some cur' ∧ cur'.childless = cur.childless ∧
        cur'.children = none := by
  simp only [leaveChildren, hcur, Option.bind_eq_bind, Option.bind_some, if_neg hpid]
  by_cases horphan : cur.orphanOnExit = true
  · rw [if_pos horphan]
    obtain ⟨l, hl, hmem⟩ := h.family.tree.list s.currentTask ⟨cur, hcur, hactive.2⟩
    have hlen : l.length < taskLimit + 1 :=
      Nat.lt_succ_of_le (h.length_le hl.nodup fun p hp => ((hmem p).mp hp).1.task_ne_none)
    exact adoptChildren_spec (taskLimit + 1) h hcur hactive hmain hpid
      (fun q hq hp => (hmem q).mpr ⟨hq, hp⟩) hlen
  · rw [if_neg horphan, if_pos ((h.roles.policy _ cur hcur).resolve_left horphan)]
    exact cleanupCurrent_spec h hcur hactive hpid

/-! ## Exit -/

/-- The current task, which has no children any more, becomes a zombie. -/
theorem TaskInv.becomeZombie (h : TaskInv s) (hcur : s.task s.currentTask = some cur)
    (hactive : cur.Active) (hmain : s.currentTask ≠ s.mainTask) (hpid : cur.pid ≠ 1)
    (hnone : cur.children = none) (code : Int) :
    TaskInv ((s.withTask s.currentTask { cur with state := .zombie, exitCode := code }).note
      (.exited cur.birth cur.pid code)) := by
  let z : Task := { cur with state := .zombie, exitCode := code }
  have hinit : s.initTask ≠ s.currentTask := by
    obtain ⟨i, hi, hipid, -⟩ := h.roles.init
    intro e
    rw [e, hcur, Option.some.injEq] at hi
    exact hpid (hi ▸ hipid)
  have hcases : ∀ q v, (s.withTask s.currentTask z).task q = some v →
      (q = s.currentTask ∧ v = z) ∨ s.task q = some v := by
    intro q v hv
    rw [withTask_task] at hv
    split_ifs at hv with hq
    · exact Or.inl ⟨hq, (Option.some.inj hv).symm⟩
    · exact Or.inr hv
  constructor
  case queue =>
    have hstate : z.state = .dead ↔ cur.state = .dead := by simp [z, hactive.2]
    have hq : QueueInv (s.withTask s.currentTask z) :=
      h.queue.withTask hcur rfl rfl rfl hstate
    exact ⟨hq.ring, hq.dead, hq.reaped⟩
  case family =>
    have hlink : ∀ g : Task → Option Pcb, g z = g cur →
        (s.withTask s.currentTask z).link g = s.link g := fun g hg => link_withTask_same hcur hg
    constructor
    case tree =>
      show KinTree ((s.withTask s.currentTask z).link Task.children)
        ((s.withTask s.currentTask z).link Task.nextSibling)
        ((s.withTask s.currentTask z).link Task.parent) (s.withTask s.currentTask z).Alive
      rw [hlink _ rfl, hlink _ rfl, hlink _ rfl]
      exact h.family.tree.congr
        (fun q => alive_withTask_same hcur (by simp [z, hactive.2])) (fun _ _ => rfl)
        (fun _ _ => rfl) fun _ _ => rfl
    case zombie =>
      intro q v hv hz
      show (s.withTask s.currentTask z).link Task.children q = none
      rw [hlink _ rfl]
      rcases hcases q v hv with ⟨rfl, -⟩ | hv
      · rw [link_of_task hcur, hnone]
      · exact h.family.zombie q v hv hz
  case roles =>
    constructor
    case limit =>
      intro q v hv
      rcases hcases q v hv with ⟨rfl, -⟩ | hv
      · exact h.roles.limit _ cur hcur
      · exact h.roles.limit q v hv
    case main =>
      obtain ⟨m, hm, hrest⟩ := h.roles.main
      exact ⟨m, (withTask_task_of_ne hmain.symm).trans hm, hrest⟩
    case init =>
      obtain ⟨i, hi, hrest⟩ := h.roles.init
      exact ⟨i, (withTask_task_of_ne hinit).trans hi, hrest⟩
    case root =>
      intro q v hv hl hroot
      rcases hcases q v hv with ⟨-, rfl⟩ | hv
      · exact h.roles.root _ cur hcur hactive.2 hroot
      · exact h.roles.root q v hv hl hroot
    case policy =>
      intro q v hv
      rcases hcases q v hv with ⟨-, rfl⟩ | hv
      · exact h.roles.policy _ cur hcur
      · exact h.roles.policy q v hv
  case supply =>
    refine h.supply.congr ?_ ?_ fun q v hv => ?_
    · rfl
    · rfl
    · rcases hcases q v hv with ⟨rfl, rfl⟩ | hv
      · exact ⟨cur, hcur, rfl⟩
      · exact ⟨v, hv, rfl⟩
  case ledger => exact h.ledger.exited h.supply hcur hactive.1 hactive.2 rfl rfl rfl

/-- The parent of the current task is woken if it sleeps. -/
theorem wakeParent_spec (h : TaskInv s) (hcur : s.task s.currentTask = some cur)
    (hlive : cur.state ≠ .dead) :
    ∃ s', s.wakeParent = some s' ∧ TaskInv s' ∧ SameFrame s s' ∧
      s'.task s.currentTask = some cur := by
  cases hparent : cur.parent with
  | none =>
    refine ⟨s, ?_, h, ⟨rfl, rfl, rfl, rfl, rfl, rfl, rfl⟩, hcur⟩
    simp only [wakeParent, hcur, Option.bind_eq_bind, Option.bind_some, hparent]
  | some p =>
    have hp : s.link Task.parent s.currentTask = some p := by rw [link_of_task hcur, hparent]
    obtain ⟨u, hu, hl⟩ := h.family.tree.up p _ ⟨cur, hcur, hlive⟩ hp
    have hne : s.currentTask ≠ p := (h.family.tree.ne_parent ⟨cur, hcur, hlive⟩ hp).symm
    simp only [wakeParent, hcur, Option.bind_eq_bind, Option.bind_some, hparent, hu]
    by_cases hsleeps : u.state = .sleeping
    · rw [if_pos hsleeps, set_of_task hu]
      refine ⟨_, rfl, ?_, ⟨rfl, rfl, rfl, rfl, rfl, rfl, rfl⟩, ?_⟩
      · exact h.setState hu (by simp [Task.Active, hsleeps]) rfl (by simp [Task.Active])
          fun _ => Or.inr rfl
      · rw [withTask_task_of_ne hne, hcur]
    · rw [if_neg hsleeps]
      exact ⟨s, rfl, h, ⟨rfl, rfl, rfl, rfl, rfl, rfl, rfl⟩, hcur⟩

/-- A task other than Init exits. -/
theorem taskExit_spec (h : SchedulerInv s) (hphase : s.phase = .running)
    (hmain : s.currentTask ≠ s.mainTask) (hcur : s.task s.currentTask = some cur)
    (hpid : cur.pid ≠ 1) (code : Int) :
    ∃ s', s.taskExit code = some s' ∧ SchedulerInv s' := by
  obtain ⟨cur₀, hcur₀, hrunning⟩ := h.running hphase
  rw [hcur] at hcur₀
  cases hcur₀
  have hactive : cur.Active := by simp [Task.Active, hrunning]
  obtain ⟨s₁, hleave, h₁, hframe₁, cur₁, hcur₁, he₁, hnone⟩ :=
    leaveChildren_spec h.tasks hcur hactive hmain hpid
  have hstate₁ : cur₁.state = cur.state := Task.childless_eq he₁ Task.state fun _ => rfl
  have hpid₁ : cur₁.pid ≠ 1 := by rwa [Task.childless_eq he₁ Task.pid fun _ => rfl]
  rw [← hframe₁.currentTask] at hcur₁
  have h₂ := h₁.becomeZombie hcur₁ (by simpa [Task.Active, hstate₁] using hactive)
    (by rw [hframe₁.currentTask, hframe₁.mainTask]; exact hmain) hpid₁ hnone code
  let z : Task := { cur₁ with state := .zombie, exitCode := code }
  let s₂ := (s₁.withTask s₁.currentTask z).note (.exited cur₁.birth cur₁.pid code)
  have hz : s₂.task s₂.currentTask = some z := withTask_task_self
  obtain ⟨s₃, hwake, h₃, hframe₃, hz₃⟩ := wakeParent_spec h₂ hz (by simp [z])
  have hbury : s₃.buryInit = some s₃ := by
    have hz₃' : s₃.task s₃.currentTask = some z := by rw [hframe₃.currentTask]; exact hz₃
    simp only [buryInit, hz₃', Option.bind_eq_bind, Option.bind_some]
    rw [if_neg hpid₁]
  refine ⟨{ s₃ with phase := .reaping }, ?_, ?_⟩
  · have hz' : (s₁.withTask s₁.currentTask z).task (s₁.withTask s₁.currentTask z).currentTask =
        some z := withTask_task_self
    simp only [taskExit, hleave, Option.bind_eq_bind, Option.bind_some, set_of_task hcur₁]
    rw [show s₁.withTask s₁.currentTask { cur₁ with state := .zombie, exitCode := code } =
      s₁.withTask s₁.currentTask z from rfl, hz', Option.bind_some]
    rw [show (s₁.withTask s₁.currentTask z).note (.exited z.birth z.pid code) = s₂ from rfl, hwake,
      Option.bind_some, hbury, Option.bind_some]
  · refine ⟨h₃.congr rfl rfl rfl rfl rfl rfl rfl rfl, by simp, fun _ => ?_, z, ?_, by simp [z],
      by simp⟩
    · exact hframe₃.reaped.trans (hframe₁.reaped.trans (h.reaper (by simp [hphase])))
    · show s₃.task s₃.currentTask = _
      rw [hframe₃.currentTask]
      exact hz₃

theorem taskKillCurrent_spec (h : SchedulerInv s) (hphase : s.phase = .running)
    (hmain : s.currentTask ≠ s.mainTask) (hcur : s.task s.currentTask = some cur)
    (hpid : cur.pid ≠ 1) : ∃ s', s.taskKillCurrent = some s' ∧ SchedulerInv s' := by
  simp only [taskKillCurrent, hcur, Option.bind_eq_bind, Option.bind_some]
  split_ifs with hzero
  · obtain ⟨t, ht, hready, -⟩ := h.awake
    exact ⟨_, rfl, h.tasks.congr rfl rfl rfl rfl rfl rfl rfl rfl, by simp, by simp, t, ht, hready,
      by simp⟩
  · exact taskExit_spec h hphase hmain hcur hpid (-1)

/-! ## Sleeping -/

/-- The current task goes to sleep and enters `schedule`. -/
theorem SchedulerInv.sleep (h : SchedulerInv s) (hphase : s.phase = .running)
    (hmain : s.currentTask ≠ s.mainTask) (hcur : s.task s.currentTask = some cur) (deadline : Nat) :
    SchedulerInv { s.withTask s.currentTask { cur with state := .sleeping, sleepUntil := deadline }
      with phase := .reaping } := by
  obtain ⟨cur₀, hcur₀, hrunning⟩ := h.running hphase
  rw [hcur] at hcur₀
  cases hcur₀
  have h₁ : TaskInv (s.withTask s.currentTask
      { cur with state := .sleeping, sleepUntil := deadline }) :=
    h.tasks.setState hcur (by simp [Task.Active, hrunning]) rfl (by simp [Task.Active])
      fun e => absurd e hmain
  refine ⟨h₁.congr rfl rfl rfl rfl rfl rfl rfl rfl, by simp, fun _ => h.reaper (by simp [hphase]),
    _, withTask_task_self, by simp, by simp⟩

theorem sysSleep_spec (h : SchedulerInv s) (hphase : s.phase = .running)
    (hmain : s.currentTask ≠ s.mainTask) (ms : Nat) :
    ∃ s', s.sysSleep ms = some s' ∧ SchedulerInv s' := by
  obtain ⟨cur, hcur, hrunning⟩ := h.running hphase
  unfold sysSleep
  split_ifs
  · exact ⟨_, rfl, h.tasks.congr rfl rfl rfl rfl rfl rfl rfl rfl, by simp,
      fun _ => h.reaper (by simp [hphase]), cur, hcur, by simp [hrunning], by simp⟩
  · rw [set_of_task hcur]
    exact ⟨_, rfl, h.sleep hphase hmain hcur _⟩

/-! ## Collecting a zombie -/

/-- The search of `task_waitpid` goes through the child list. -/
theorem findZombie_spec {l : List Pcb} {head : Option Pcb} (pid fuel : Nat)
    (hl : Threaded (s.link Task.nextSibling) head l) (hmem : ∀ q ∈ l, s.task q ≠ none)
    (hfuel : l.length < fuel) :
    ∃ found, s.findZombie pid fuel head = some found ∧
      ∀ z, found = some z → z ∈ l ∧ ∃ t, s.task z = some t ∧ t.state = .zombie := by
  induction l generalizing head fuel with
  | nil =>
    obtain ⟨fuel, rfl⟩ := Nat.exists_eq_succ_of_ne_zero (by omega : fuel ≠ 0)
    rw [Threaded.nil_iff] at hl
    subst hl
    exact ⟨none, rfl, by simp⟩
  | cons c l ih =>
    obtain ⟨fuel, rfl⟩ := Nat.exists_eq_succ_of_ne_zero (by omega : fuel ≠ 0)
    rw [Threaded.cons_iff] at hl
    obtain ⟨rfl, hrest⟩ := hl
    obtain ⟨t, ht⟩ := Option.ne_none_iff_exists'.mp (hmem c (by simp))
    simp only [findZombie, ht, Option.bind_eq_bind, Option.bind_some]
    split_ifs with hfound
    · refine ⟨some c, rfl, fun z hz => ?_⟩
      cases hz
      exact ⟨by simp, t, ht, hfound.1⟩
    · rw [link_of_task ht] at hrest
      obtain ⟨found, hrun, hspec⟩ := ih fuel hrest (fun q hq => hmem q (by simp [hq]))
        (by simp at hfuel; omega)
      refine ⟨found, hrun, fun z hz => ?_⟩
      obtain ⟨hin, hzombie⟩ := hspec z hz
      exact ⟨by simp [hin], hzombie⟩

/-- The loop that looks for the sibling before a child that is not the first one. -/
theorem siblingBefore_spec {l : List Pcb} {head : Option Pcb} (fuel : Nat)
    (hl : Threaded (s.link Task.nextSibling) head l) (hmem : ∀ q ∈ l, s.task q ≠ none)
    (hz : c ∈ l) (hfirst : head ≠ some c) (hfuel : l.length < fuel) :
    ∃ w ∈ l, s.siblingBefore c fuel head = some (some w) ∧
      s.link Task.nextSibling w = some c := by
  induction l generalizing head fuel with
  | nil => simp at hz
  | cons a l ih =>
    obtain ⟨fuel, rfl⟩ := Nat.exists_eq_succ_of_ne_zero (by omega : fuel ≠ 0)
    rw [Threaded.cons_iff] at hl
    obtain ⟨rfl, hrest⟩ := hl
    obtain ⟨t, ht⟩ := Option.ne_none_iff_exists'.mp (hmem a (by simp))
    have hac : c ≠ a := fun e => hfirst (by rw [e])
    rw [link_of_task ht] at hrest
    simp only [siblingBefore, ht, Option.bind_eq_bind, Option.bind_some]
    split_ifs with hnext
    · exact ⟨a, by simp, rfl, by rw [link_of_task ht, hnext]⟩
    · obtain ⟨w, hw, hrun, hlink⟩ := ih fuel hrest (fun q hq => hmem q (by simp [hq]))
        ((List.mem_cons.mp hz).resolve_left hac) hnext (by simp at hfuel; omega)
      exact ⟨w, by simp [hw], hrun, hlink⟩

/-- One pointer has been set so that it leads past the child `c`. -/
structure Unchained (s s' : Scheduler) (c : Pcb) : Prop where
  edit : ∃ w t t', w ≠ c ∧ s.task w = some t ∧ s' = s.withTask w t' ∧ t'.lone = t.lone
  children : ∀ p, s.Alive p → p ≠ c → s'.link Task.children p =
    if s.link Task.children p = some c then s.link Task.nextSibling c else s.link Task.children p
  sib : ∀ w, s.Alive w → w ≠ c → s'.link Task.nextSibling w =
    if s.link Task.nextSibling w = some c then s.link Task.nextSibling c
    else s.link Task.nextSibling w

/-- A child is taken out of the list of its parent. -/
theorem unlinkChild_spec (h : TaskInv s) (hc : s.Alive c)
    (hparent : s.link Task.parent c = some p) :
    ∃ s', s.unlinkChild p c = some s' ∧ Unchained s s' c := by
  have htree := h.family.tree
  obtain ⟨u, hu, hul⟩ := htree.up p c hc hparent
  have halive : s.Alive p := ⟨u, hu, hul⟩
  have hpc : p ≠ c := htree.ne_parent hc hparent
  obtain ⟨t, ht, hlive⟩ := id hc
  have hsib : s.link Task.nextSibling c = t.nextSibling := link_of_task ht
  simp only [unlinkChild, hu, ht, Option.bind_eq_bind, Option.bind_some]
  split_ifs with hfirst
  · -- the child is the first one
    have hhead : s.link Task.children p = some c := by rw [link_of_task hu, hfirst]
    let u' : Task := { u with children := t.nextSibling }
    have hsame : (s.withTask p u').link Task.nextSibling = s.link Task.nextSibling :=
      link_withTask_same hu rfl
    rw [set_of_task hu]
    refine ⟨s.withTask p u', rfl, ⟨p, u, u', hpc, hu, rfl, rfl⟩, fun q hq _ => ?_,
      fun w hw _ => ?_⟩
    · rw [link_withTask, hsib]
      by_cases hqp : q = p
      · rw [if_pos hqp, hqp, if_pos hhead]
      · rw [if_neg hqp, if_neg]
        intro hqc
        exact hqp (Option.some.inj ((htree.child_parent hq hqc).2.symm.trans hparent))
    · rw [hsame, if_neg (htree.sib_ne_first halive hhead hw)]
  · obtain ⟨l, hl, hmem⟩ := htree.list p halive
    have hall : ∀ q ∈ l, s.task q ≠ none := fun q hq => ((hmem q).mp hq).1.task_ne_none
    have hhead : s.link Task.children p = u.children := link_of_task hu
    rw [hhead] at hl
    obtain ⟨w, hw, hrun, hnext⟩ := siblingBefore_spec (taskLimit + 1) hl hall
      ((hmem c).mpr ⟨hc, hparent⟩) hfirst (Nat.lt_succ_of_le (h.length_le hl.nodup hall))
    obtain ⟨v, hv, hvl⟩ := ((hmem w).mp hw).1
    have hwc : w ≠ c := by
      rintro rfl
      exact (htree.sib_ne_self ((hmem w).mp hw).1) hnext
    let v' : Task := { v with nextSibling := t.nextSibling }
    have hsame : (s.withTask w v').link Task.children = s.link Task.children :=
      link_withTask_same hv rfl
    simp only [hrun, Option.bind_some, set_of_task hv]
    refine ⟨s.withTask w v', rfl, ⟨w, v, v', hwc, hv, rfl, rfl⟩, fun q hq _ => ?_,
      fun q hq _ => ?_⟩
    · rw [hsame, if_neg]
      intro hqc
      exact htree.sib_ne_first hq hqc ((hmem w).mp hw).1 hnext
    · rw [link_withTask, hsib]
      by_cases hqw : q = w
      · rw [if_pos hqw, hqw, if_pos hnext]
      · rw [if_neg hqw, if_neg]
        intro hqc
        exact hqw (htree.sib_inj hq ((hmem w).mp hw).1 hqc hnext)

namespace Unchained

variable (h : Unchained s s' c)

include h

theorem aged : Aged s s' := by
  obtain ⟨w, t, t', -, ht, rfl, he⟩ := h.edit
  apply Aged.withTask ht
  refine ⟨Task.lone_eq he Task.traits fun _ => rfl, ?_⟩
  have hstate := Task.lone_eq he Task.state fun _ => rfl
  by_cases hd : t.state = .dead
  · exact Or.inl (hstate.trans hd)
  · exact Or.inr ⟨hd, Task.lone_eq he Task.parent fun _ => rfl,
      Task.lone_eq he Task.exitCode fun _ => rfl, by rw [hstate]⟩

theorem self : s'.task c = s.task c := by
  obtain ⟨w, t, t', hw, ht, rfl, he⟩ := h.edit
  exact withTask_task_of_ne hw.symm

theorem queue (hq : QueueInv s) : QueueInv s' := by
  obtain ⟨w, t, t', hw, ht, rfl, he⟩ := h.edit
  exact hq.withTask ht (Task.lone_eq he Task.next fun _ => rfl)
    (Task.lone_eq he Task.prev fun _ => rfl) (Task.lone_eq he Task.reaperNext fun _ => rfl)
    (by rw [Task.lone_eq he Task.state fun _ => rfl])

theorem sameFrame : SameFrame s s' := by
  obtain ⟨w, t, t', hw, ht, rfl, he⟩ := h.edit
  exact ⟨rfl, rfl, rfl, rfl, rfl, rfl, rfl⟩

theorem exists_task' (hu : s'.task p = some u) : ∃ v, s.task p = some v ∧ u.lone = v.lone := by
  obtain ⟨w, t, t', hw, ht, rfl, he⟩ := h.edit
  rw [withTask_task] at hu
  split_ifs at hu with hp
  · rw [Option.some.injEq] at hu
    exact ⟨t, hp ▸ ht, hu ▸ he⟩
  · exact ⟨u, hu, rfl⟩

theorem alive : s'.Alive p ↔ s.Alive p := by
  obtain ⟨w, t, t', hw, ht, rfl, he⟩ := h.edit
  exact alive_withTask_same ht (by rw [Task.lone_eq he Task.state fun _ => rfl])

theorem parent : s'.link Task.parent = s.link Task.parent := by
  obtain ⟨w, t, t', hw, ht, rfl, he⟩ := h.edit
  exact link_withTask_same ht (Task.lone_eq he Task.parent fun _ => rfl)

end Unchained

/-- `task_waitpid` hands a zombie to the reaper and delivers its exit code. -/
theorem collect_spec (h : TaskInv s) (hcur : s.task s.currentTask = some cur)
    (hactive : cur.Active) (ht : s.task c = some t) (hz : t.state = .zombie)
    (hparent : t.parent = some s.currentTask) :
    ∃ s', s.collect c = some s' ∧ TaskInv s' ∧ SameFrame s s' ∧
      ∃ cur', s'.task s.currentTask = some cur' ∧ cur'.state = cur.state := by
  have hlive : t.state ≠ .dead := by simp [hz]
  have hcalive : s.Alive c := ⟨t, ht, hlive⟩
  have hne : c ≠ s.currentTask := by
    rintro rfl
    rw [hcur, Option.some.injEq] at ht
    exact hactive.1 (ht ▸ hz)
  have hchild : s.link Task.parent c = some s.currentTask := by rw [link_of_task ht, hparent]
  obtain ⟨s₁, hunlink, h₁⟩ := unlinkChild_spec h hcalive hchild
  have hq₁ := h₁.queue h.queue
  have ht₁ : s₁.task c = some t := h₁.self.trans ht
  have hcurrent₁ : s₁.currentTask = s.currentTask := h₁.sameFrame.currentTask
  have hne₁ : c ≠ s₁.currentTask := by rwa [hcurrent₁]
  obtain ⟨rest, hr, hrest, -, hmem⟩ := hq₁.ring_from ⟨t, ht₁, hlive⟩ hne₁
  obtain ⟨s₂, hbypass, hb⟩ := bypass_spec hr hrest fun p hp => ((hmem p).mp hp).task_ne_none
  have hnext : t.next ≠ some c := by
    obtain ⟨y, ys, rfl⟩ := List.exists_cons_of_ne_nil hrest
    have hy := hr.next_cons
    rw [link_of_task ht₁] at hy
    intro hcc
    have hyc : y = c := Option.some.inj (hy.symm.trans hcc)
    exact (List.nodup_cons.mp hr.nodup).1 (by simp [hyc])
  have ht₂ : s₂.task c = some t := hb.self.trans ht₁
  -- the zombie itself
  let t₃ : Task := { t with state := .dead }
  let s₃ := s₂.withTask c t₃
  have ht₃ : s₃.task c = some t₃ := withTask_task_self
  let t₄ : Task := { t₃ with reaperNext := s₃.deadTasksHead }
  let s₄ : Scheduler := { s₃.withTask c t₄ with deadTasksHead := some c }
  have ht₄ : s₄.task c = some t₄ := withTask_task_self
  have hhead : s₃.deadTasksHead = s₁.deadTasksHead := hb.relinked.deadTasksHead
  have hbury : Buried s₁ s₄ c ∧ QueueInv s₄ := by
    refine hq₁.of_bypassed ht₁ hlive hne₁ hb (fun _ _ => rfl) rfl rfl ?_ ht₄ rfl rfl hhead rfl ?_
    · intro p hp
      exact (withTask_task_of_ne hp).trans (withTask_task_of_ne hp)
    · exact (congrArg (fun x : Scheduler =>
        { x with task := s₁.task, deadTasksHead := s₁.deadTasksHead }) hb.relinked.frame :)
  obtain ⟨hburied, hq₄⟩ := hbury
  have haged : Aged s s₄ := h₁.aged.trans hburied.aged
  have hframe := hburied.frame
  have hsame : SameFrame s₁ s₄ :=
    ⟨(congrArg Scheduler.currentTask hframe :), (congrArg Scheduler.mainTask hframe :),
      (congrArg Scheduler.initTask hframe :), (congrArg Scheduler.reaped hframe :),
      (congrArg Scheduler.phase hframe :), (congrArg Scheduler.tickCount hframe :),
      (congrArg Scheduler.nextPid hframe :)⟩
  -- a task other than the zombie keeps its state
  have hstate : ∀ q v, q ≠ c → s.task q = some v → ∃ v', s₄.task q = some v' ∧
      v'.state = v.state := by
    intro q v hqc hv
    obtain ⟨v₁, hv₁, -⟩ := h₁.aged.task q v hv
    obtain ⟨v', hv', he⟩ := hburied.exists_other hqc hv₁
    obtain ⟨w, hw, hlone⟩ := h₁.exists_task' hv₁
    rw [hv] at hw
    cases hw
    exact ⟨v', hv', (Task.field_eq he Task.state fun _ => rfl).trans
      (Task.lone_eq hlone Task.state fun _ => rfl)⟩
  have hnotz : ∀ q v, s.task q = some v → v.Active → q ≠ c := by
    rintro q v hv ha rfl
    rw [ht, Option.some.injEq] at hv
    exact ha.1 (hv ▸ hz)
  obtain ⟨cur', hcur', hcstate⟩ := hstate _ cur hne.symm hcur
  refine ⟨s₄.note (.delivered cur.birth t.birth t.pid t.exitCode), ?_, ?_,
    h₁.sameFrame.trans ⟨hsame.currentTask, hsame.mainTask, hsame.initTask, hsame.reaped,
      hsame.phase, hsame.tickCount, hsame.nextPid⟩, cur', hcur', hcstate⟩
  · have hdead : s₂.set c (fun t => { t with state := .dead }) = some s₃ := set_of_task ht₂ _
    have hpush : s₃.pushDead c = some s₄ := by
      simp only [pushDead, Option.bind_eq_bind, set_of_task ht₃, Option.bind_some]
      rfl
    simp only [collect, ht, hcur, hunlink, if_pos hnext, hbypass, Option.bind_eq_bind,
      Option.bind_some, hdead, hpush]
  · constructor
    case queue => exact ⟨hq₄.ring, hq₄.dead, hq₄.reaped⟩
    case family =>
      have halive : ∀ q, s₄.Alive q ↔ s.Alive q ∧ q ≠ c := by
        intro q
        rw [hburied.alive, h₁.alive]
      have hlink : ∀ (g : Task → Option Pcb), (∀ t, g (Task.unlinked t) = g t) → ∀ q, q ≠ c →
          s₄.link g q = s₁.link g q := fun g hg q hq => hburied.link_eq hq hg
      constructor
      case tree =>
        have htree : KinTree (s₄.link Task.children) (s₄.link Task.nextSibling)
            (s₄.link Task.parent) s₄.Alive := by
          apply h.family.tree.removeLeaf hcalive (h.family.zombie c t ht hz) halive
          · intro q hq hqc
            rw [hlink Task.children (fun _ => rfl) q hqc, h₁.children q hq hqc]
          · intro q hq hqc
            rw [hlink Task.nextSibling (fun _ => rfl) q hqc, h₁.sib q hq hqc]
          · intro q _ hqc
            rw [hlink Task.parent (fun _ => rfl) q hqc, h₁.parent]
        exact htree.congr (fun _ => Iff.rfl) (fun _ _ => rfl) (fun _ _ => rfl) fun _ _ => rfl
      case zombie =>
        intro q v hv hvz
        obtain ⟨w, hw, he⟩ := hburied.exists_of_alive hv (by simp [hvz])
        obtain ⟨x, hx, hlone⟩ := h₁.exists_task' hw
        have hxz : x.state = .zombie := by
          rw [← Task.lone_eq hlone Task.state fun _ => rfl,
            ← Task.field_eq he Task.state fun _ => rfl, hvz]
        have hqc : q ≠ c := ((halive q).mp ⟨v, hv, by simp [hvz]⟩).2
        show s₄.link Task.children q = none
        rw [hlink Task.children (fun _ => rfl) q hqc,
          h₁.children q ⟨x, hx, by simp [hxz]⟩ hqc, h.family.zombie q x hx hxz, if_neg (by simp)]
    case roles =>
      have hroles : RoleInv s₄ := by
        apply h.roles.aged haged
        · intro m' hm'
          obtain ⟨m, hm, -, hmstate, -⟩ := h.roles.main
          obtain ⟨m'', hm'', he⟩ := hstate _ m
            (hnotz _ m hm (by rcases hmstate with h | h <;> simp [Task.Active, h])) hm
          rw [hm', Option.some.injEq] at hm''
          rw [hm'', he]
          exact hmstate
        · intro i' hi'
          obtain ⟨i, hi, -, hiz, hil, -⟩ := h.roles.init
          obtain ⟨i'', hi'', he⟩ := hstate _ i (hnotz _ i hi ⟨hiz, hil⟩) hi
          rw [hi', Option.some.injEq] at hi''
          rw [hi'', he]
          exact hil
      exact ⟨hroles.limit, hroles.main, hroles.init, hroles.root, hroles.policy⟩
    case supply =>
      have hsupply := h.supply.aged haged
      exact ⟨hsupply.stack, hsupply.stack_inj, hsupply.birth_lt, hsupply.birth_inj⟩
    case ledger =>
      apply h.ledger.delivered h.supply haged ht hz hparent hcur
      intro v hv
      rw [ht₄, Option.some.injEq] at hv
      rw [← hv]

/-- What the search finds is a child that has exited. -/
theorem TaskInv.findZombie_child (h : TaskInv s) (hcur : s.task s.currentTask = some cur)
    (hlive : cur.state ≠ .dead) (pid : Nat) :
    ∃ found, s.findZombie pid (taskLimit + 1) cur.children = some found ∧
      ∀ z, found = some z →
        ∃ t, s.task z = some t ∧ t.state = .zombie ∧ t.parent = some s.currentTask := by
  obtain ⟨l, hl, hmem⟩ := h.family.tree.list s.currentTask ⟨cur, hcur, hlive⟩
  rw [link_of_task hcur] at hl
  have hall : ∀ q ∈ l, s.task q ≠ none := fun q hq => ((hmem q).mp hq).1.task_ne_none
  obtain ⟨found, hfind, hfound⟩ := findZombie_spec pid (taskLimit + 1) hl hall
    (Nat.lt_succ_of_le (h.length_le hl.nodup hall))
  refine ⟨found, hfind, fun z hz => ?_⟩
  obtain ⟨hin, t, ht, hzombie⟩ := hfound z hz
  have hparent := ((hmem z).mp hin).2
  rw [link_of_task ht] at hparent
  exact ⟨t, ht, hzombie, hparent⟩

theorem taskWaitpid_spec (h : SchedulerInv s) (hphase : s.phase = .running)
    (hmain : s.currentTask ≠ s.mainTask) (pid options : Nat) :
    ∃ s', s.taskWaitpid pid options = some s' ∧ SchedulerInv s' := by
  obtain ⟨cur, hcur, hrunning⟩ := h.running hphase
  have hactive : cur.Active := by simp [Task.Active, hrunning]
  have hreaped := h.reaper (by simp [hphase])
  obtain ⟨found, hfind, hfound⟩ := h.tasks.findZombie_child hcur hactive.2 pid
  simp only [taskWaitpid, hcur, Option.bind_eq_bind, Option.bind_some, hfind]
  cases found with
  | some z =>
    obtain ⟨t, ht, hzombie, hparent⟩ := hfound z rfl
    obtain ⟨s', hcollect, h', hframe, cur', hcur', hstate⟩ :=
      collect_spec h.tasks hcur hactive ht hzombie hparent
    refine ⟨s', hcollect, h', ?_, fun _ => hframe.reaped.trans hreaped, cur', ?_, ?_, ?_⟩
    · rw [hframe.phase, hphase]
      simp
    · rw [hframe.currentTask, hcur']
    · rw [hstate, hrunning]
      simp
    · exact fun _ => hstate.trans hrunning
  | none =>
    split_ifs
    · exact ⟨s, rfl, h⟩
    · rw [set_of_task hcur]
      exact ⟨_, rfl, h.sleep hphase hmain hcur 0⟩

end Scheduler
end EnclaveOS
