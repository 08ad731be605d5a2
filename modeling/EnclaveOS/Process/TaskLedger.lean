import EnclaveOS.Process.ProcessTree

/-!
# TaskLedger - what the log says about every task

The log of a run records births, adoptions, exits, deliveries to parents and the memory
given back.  The invariants tie it to the tasks in memory: a task in memory has not been
given back, a zombie has exited with its code and nothing of it has been delivered, and
the last birth or adoption names the parent.
-/

namespace EnclaveOS

namespace TaskEvent

/-- The task that an event is about. -/
def birth : TaskEvent → Nat
  | .created _ b _ _ => b
  | .adopted _ b => b
  | .exited b _ _ => b
  | .delivered _ b _ _ => b
  | .freedStack b _ => b
  | .freedPcb b _ => b

def freesOf (b : Nat) : TaskEvent → Bool
  | .freedStack b' _ => b' = b
  | .freedPcb b' _ => b' = b
  | _ => false

def ExitOf (b : Nat) : TaskEvent → Prop
  | .exited b' _ _ => b' = b
  | _ => False

def DeliveryOf (b : Nat) : TaskEvent → Prop
  | .delivered _ b' _ _ => b' = b
  | _ => False

/-- The parent that the latest birth or adoption of a task names. -/
def parentIn (b : Nat) : List TaskEvent → Option Nat
  | [] => none
  | .created w b' _ _ :: past => if b' = b then some w else parentIn b past
  | .adopted w b' :: past => if b' = b then some w else parentIn b past
  | _ :: past => parentIn b past

/-- What has to come before an event.  A task exits once; what is delivered is an exit of the
task, to the parent that it has then, and only once. -/
def Follows (past : List TaskEvent) : TaskEvent → Prop
  | .exited b _ _ => ∀ e ∈ past, ¬ e.ExitOf b
  | .delivered w b pid code =>
    .exited b pid code ∈ past ∧ parentIn b past = some w ∧ ∀ e ∈ past, ¬ e.DeliveryOf b
  | _ => True

/-- Every event of a log, which has the latest one first, follows the earlier ones. -/
def Orderly : List TaskEvent → Prop
  | [] => True
  | e :: past => e.Follows past ∧ Orderly past

theorem birth_of_exitOf {e : TaskEvent} {b : Nat} (h : e.ExitOf b) : e.birth = b := by
  cases e <;> simp [ExitOf] at h
  exact h

theorem birth_of_deliveryOf {e : TaskEvent} {b : Nat} (h : e.DeliveryOf b) : e.birth = b := by
  cases e <;> simp [DeliveryOf] at h
  exact h

theorem birth_of_freesOf {e : TaskEvent} {b : Nat} (h : e.freesOf b = true) : e.birth = b := by
  cases e <;> simp [freesOf] at h
  all_goals exact h

end TaskEvent

/-- The same task later: it has died, or has kept its parent and its exit code and is a zombie
only if it was one. -/
structure Task.Ages (t t' : Task) : Prop where
  traits : t'.traits = t.traits
  life : t'.state = .dead ∨ t.state ≠ .dead ∧ t'.parent = t.parent ∧ t'.exitCode = t.exitCode ∧
    (t'.state = .zombie ↔ t.state = .zombie)

namespace Task.Ages

variable {t t' t'' : Task}

theorem of_unlinked (h : t'.unlinked = t.unlinked) : t.Ages t' := by
  refine ⟨Task.field_eq h Task.traits fun _ => rfl, ?_⟩
  have hstate := Task.field_eq h Task.state fun _ => rfl
  by_cases hd : t.state = .dead
  · exact Or.inl (hstate.trans hd)
  · exact Or.inr ⟨hd, Task.field_eq h Task.parent fun _ => rfl,
      Task.field_eq h Task.exitCode fun _ => rfl, by rw [hstate]⟩

theorem trans (h : t.Ages t') (h' : t'.Ages t'') : t.Ages t'' := by
  refine ⟨h'.traits.trans h.traits, ?_⟩
  rcases h'.life with hd | ⟨hl, hp, hc, hz⟩
  · exact Or.inl hd
  · rcases h.life with hd' | ⟨hl', hp', hc', hz'⟩
    · exact absurd hd' hl
    · exact Or.inr ⟨hl', hp.trans hp', hc.trans hc', hz.trans hz'⟩

theorem pid (h : t.Ages t') : t'.pid = t.pid := congrArg Prod.fst h.traits
theorem stack (h : t.Ages t') : t'.kernelStackVirt = t.kernelStackVirt :=
  congrArg (fun x => x.2.1) h.traits
theorem birth (h : t.Ages t') : t'.birth = t.birth := congrArg (fun x => x.2.2.1) h.traits
theorem flags (h : t.Ages t') : t'.orphanOnExit = t.orphanOnExit ∧
    t'.monitorChildren = t.monitorChildren :=
  ⟨congrArg (fun x => x.2.2.2.1) h.traits, congrArg (fun x => x.2.2.2.2) h.traits⟩

theorem alive (h : t.Ages t') (hl : t'.state ≠ .dead) : t.state ≠ .dead ∧ t'.parent = t.parent ∧
    t'.exitCode = t.exitCode ∧ (t'.state = .zombie ↔ t.state = .zombie) :=
  h.life.resolve_left hl

end Task.Ages

namespace Scheduler

variable {s s' s'' : Scheduler} {p q c new : Pcb} {t t' u : Task} {rank : Pcb → Nat} {k : Nat}

/-- The same tasks later, and the same log. -/
structure Aged (s s' : Scheduler) : Prop where
  mainTask : s'.mainTask = s.mainTask
  initTask : s'.initTask = s.initTask
  nextPid : s'.nextPid = s.nextPid
  log : s'.log = s.log
  task : ∀ p t, s.task p = some t → ∃ t', s'.task p = some t' ∧ t.Ages t'
  free : ∀ p, s.task p = none → s'.task p = none

namespace Aged

theorem trans (h : Aged s s') (h' : Aged s' s'') : Aged s s'' := by
  constructor
  case mainTask => exact h'.mainTask.trans h.mainTask
  case initTask => exact h'.initTask.trans h.initTask
  case nextPid => exact h'.nextPid.trans h.nextPid
  case log => exact h'.log.trans h.log
  case task =>
    intro p t ht
    obtain ⟨t', ht', ha⟩ := h.task p t ht
    obtain ⟨t'', ht'', ha'⟩ := h'.task p t' ht'
    exact ⟨t'', ht'', ha.trans ha'⟩
  case free => exact fun p hp => h'.free p (h.free p hp)

theorem earlier (h : Aged s s') (ht' : s'.task p = some t') : ∃ t, s.task p = some t ∧ t.Ages t' := by
  cases ht : s.task p with
  | none => simp [h.free p ht] at ht'
  | some t =>
    obtain ⟨u, hu, ha⟩ := h.task p t ht
    rw [ht', Option.some.injEq] at hu
    exact ⟨t, rfl, hu ▸ ha⟩

theorem withTask (ht : s.task p = some t) (ha : t.Ages t') : Aged s (s.withTask p t') := by
  refine ⟨rfl, rfl, rfl, rfl, fun q u hu => ?_, fun q hq => ?_⟩
  · by_cases hqp : q = p
    · subst hqp
      rw [ht, Option.some.injEq] at hu
      exact ⟨t', withTask_task_self, hu ▸ ha⟩
    · exact ⟨u, (withTask_task_of_ne hqp).trans hu, .of_unlinked rfl⟩
  · rw [withTask_task_of_ne, hq]
    rintro rfl
    simp [ht] at hq

end Aged

theorem Culled.aged (h : Culled rank k s s') : Aged s s' := by
  have hf := h.frame
  refine ⟨(congrArg Scheduler.mainTask hf :), (congrArg Scheduler.initTask hf :),
    (congrArg Scheduler.nextPid hf :), (congrArg Scheduler.log hf :), fun p t ht => ?_,
    fun p hp => ?_⟩
  · rcases h.task p with h | ⟨-, u, u', hu, -, hu', hd, hi⟩
    · rw [ht] at h
      obtain ⟨t', ht', he⟩ := exists_of_map_unlinked h
      exact ⟨t', ht', .of_unlinked he⟩
    · rw [ht] at hu
      cases hu
      exact ⟨u', hu', hi, Or.inl hd⟩
  · rcases h.task p with h | ⟨-, u, u', hu, -⟩
    · simpa [hp] using h
    · simp [hp] at hu

theorem Buried.aged (h : Buried s s' c) : Aged s s' := by
  have hf := h.frame
  obtain ⟨u, u', hu, hu', hd, hi⟩ := h.self
  refine ⟨(congrArg Scheduler.mainTask hf :), (congrArg Scheduler.initTask hf :),
    (congrArg Scheduler.nextPid hf :), (congrArg Scheduler.log hf :), fun p t ht => ?_,
    fun p hp => ?_⟩
  · by_cases hpc : p = c
    · subst hpc
      rw [ht] at hu
      cases hu
      exact ⟨u', hu', hi, Or.inl hd⟩
    · have := h.other p hpc
      rw [ht] at this
      obtain ⟨t', ht', he⟩ := exists_of_map_unlinked this
      exact ⟨t', ht', .of_unlinked he⟩
  · have hpc : p ≠ c := by
      rintro rfl
      simp [hp] at hu
    simpa [hp] using h.other p hpc

/-- The task of `kernel_main` never sleeps and has no parent, and `init_task` has pid 1
and has not exited.  Only tasks with pid 1 have no parent, and every task says what becomes
of its children. -/
structure RoleInv (s : Scheduler) : Prop where
  limit : ∀ p t, s.task p = some t → p < taskLimit
  main : ∃ m, s.task s.mainTask = some m ∧ m.pid = 1 ∧
    (m.state = .running ∨ m.state = .ready) ∧ m.parent = none
  init : ∃ i, s.task s.initTask = some i ∧ i.pid = 1 ∧ i.state ≠ .zombie ∧ i.state ≠ .dead ∧
    (i.parent = none ∨ i.parent = some s.mainTask)
  root : ∀ p t, s.task p = some t → t.state ≠ .dead → t.parent = none → t.pid = 1
  policy : ∀ p t, s.task p = some t → t.orphanOnExit = true ∨ t.monitorChildren = true

theorem RoleInv.aged (h : RoleInv s) (ha : Aged s s')
    (hmain : ∀ t', s'.task s.mainTask = some t' → t'.state = .running ∨ t'.state = .ready)
    (hinit : ∀ t', s'.task s.initTask = some t' → t'.state ≠ .dead) : RoleInv s' := by
  constructor
  case limit =>
    intro p t' ht'
    obtain ⟨t, ht, -⟩ := ha.earlier ht'
    exact h.limit p t ht
  case main =>
    obtain ⟨m, hm, hpid, hstate, hparent⟩ := h.main
    obtain ⟨m', hm', hages⟩ := ha.task _ _ hm
    have hstate' := hmain m' hm'
    have hlive : m'.state ≠ .dead := by rcases hstate' with h | h <;> simp [h]
    refine ⟨m', ha.mainTask ▸ hm', hages.pid.trans hpid, hstate', ?_⟩
    rw [(hages.alive hlive).2.1, hparent]
  case init =>
    obtain ⟨i, hi, hpid, hz, hl, hparent⟩ := h.init
    obtain ⟨i', hi', hages⟩ := ha.task _ _ hi
    have hlive := hinit i' hi'
    obtain ⟨-, hparent', -, hz'⟩ := hages.alive hlive
    refine ⟨i', ha.initTask ▸ hi', hages.pid.trans hpid, fun h => hz (hz'.mp h), hlive, ?_⟩
    rw [hparent', ha.mainTask]
    exact hparent
  case root =>
    intro p t' ht' hl hroot
    obtain ⟨t, ht, hages⟩ := ha.earlier ht'
    obtain ⟨hl', hparent, -, -⟩ := hages.alive hl
    rw [hages.pid]
    exact h.root p t ht hl' (hparent ▸ hroot)
  case policy =>
    intro p t' ht'
    obtain ⟨t, ht, hages⟩ := ha.earlier ht'
    rw [hages.flags.1, hages.flags.2]
    exact h.policy p t ht

/-- Every task but that of `kernel_main` has a kernel stack of its own, and the births of
the tasks are different and below the counter. -/
structure SupplyInv (s : Scheduler) : Prop where
  stack : ∀ p t, s.task p = some t → (t.kernelStackVirt = 0 ↔ p = s.mainTask)
  stack_inj : ∀ p q t u, s.task p = some t → s.task q = some u →
    t.kernelStackVirt = u.kernelStackVirt → p = q
  birth_lt : ∀ p t, s.task p = some t → t.birth < s.nextPid
  birth_inj : ∀ p q t u, s.task p = some t → s.task q = some u → t.birth = u.birth → p = q

theorem SupplyInv.congr (h : SupplyInv s) (hmain : s'.mainTask = s.mainTask)
    (hpid : s'.nextPid = s.nextPid)
    (htraits : ∀ p t', s'.task p = some t' → ∃ t, s.task p = some t ∧ t'.traits = t.traits) :
    SupplyInv s' := by
  have hcases : ∀ p t', s'.task p = some t' → ∃ t, s.task p = some t ∧
      t'.kernelStackVirt = t.kernelStackVirt ∧ t'.birth = t.birth := by
    intro p t' ht'
    obtain ⟨t, ht, he⟩ := htraits p t' ht'
    exact ⟨t, ht, congrArg (fun x => x.2.1) he, congrArg (fun x => x.2.2.1) he⟩
  constructor
  case stack =>
    intro p t' ht'
    obtain ⟨t, ht, hs, -⟩ := hcases p t' ht'
    rw [hs, hmain]
    exact h.stack p t ht
  case stack_inj =>
    intro p q t' u' ht' hu' he
    obtain ⟨t, ht, hs, -⟩ := hcases p t' ht'
    obtain ⟨u, hu, hs', -⟩ := hcases q u' hu'
    exact h.stack_inj p q t u ht hu (hs.symm.trans (he.trans hs'))
  case birth_lt =>
    intro p t' ht'
    obtain ⟨t, ht, -, hb⟩ := hcases p t' ht'
    rw [hb, hpid]
    exact h.birth_lt p t ht
  case birth_inj =>
    intro p q t' u' ht' hu' he
    obtain ⟨t, ht, -, hb⟩ := hcases p t' ht'
    obtain ⟨u, hu, -, hb'⟩ := hcases q u' hu'
    exact h.birth_inj p q t u ht hu (hb.symm.trans (he.trans hb'))

theorem SupplyInv.aged (h : SupplyInv s) (ha : Aged s s') : SupplyInv s' := by
  apply h.congr ha.mainTask ha.nextPid
  intro p t' ht'
  obtain ⟨t, ht, hages⟩ := ha.earlier ht'
  exact ⟨t, ht, hages.traits⟩

/-- What the log says about the tasks in memory and about those that have been given back. -/
structure LedgerInv (s : Scheduler) : Prop where
  recent : ∀ e ∈ s.log, e.birth < s.nextPid
  held : ∀ p t, s.task p = some t → p ≠ s.mainTask →
    ∃ w, .created w t.birth p t.kernelStackVirt ∈ s.log
  unfreed : ∀ p t, s.task p = some t → s.log.filter (·.freesOf t.birth) = []
  released : ∀ w b p stack, .created w b p stack ∈ s.log →
    (∃ t, s.task p = some t ∧ t.birth = b ∧ t.kernelStackVirt = stack) ∨
      s.log.filter (·.freesOf b) = [.freedPcb b p, .freedStack b stack]
  zombie : ∀ p t, s.task p = some t → t.state = .zombie →
    .exited t.birth t.pid t.exitCode ∈ s.log
  active : ∀ p t, s.task p = some t → t.state ≠ .zombie → t.state ≠ .dead →
    ∀ e ∈ s.log, ¬ e.ExitOf t.birth
  undelivered : ∀ p t, s.task p = some t → t.state ≠ .dead → ∀ e ∈ s.log, ¬ e.DeliveryOf t.birth
  parents : ∀ p t w u, s.task p = some t → t.state ≠ .dead → t.parent = some w →
    s.task w = some u → TaskEvent.parentIn t.birth s.log = some u.birth
  orderly : TaskEvent.Orderly s.log

namespace LedgerInv

theorem aged (h : LedgerInv s) (ha : Aged s s') : LedgerInv s' := by
  constructor
  case recent =>
    rw [ha.log, ha.nextPid]
    exact h.recent
  case held =>
    intro p t' ht' hp
    obtain ⟨t, ht, hages⟩ := ha.earlier ht'
    rw [hages.birth, hages.stack, ha.log]
    exact h.held p t ht (ha.mainTask ▸ hp)
  case unfreed =>
    intro p t' ht'
    obtain ⟨t, ht, hages⟩ := ha.earlier ht'
    rw [hages.birth, ha.log]
    exact h.unfreed p t ht
  case released =>
    intro w b p stack he
    rw [ha.log] at he ⊢
    refine (h.released w b p stack he).imp_left ?_
    rintro ⟨t, ht, hb, hst⟩
    obtain ⟨t', ht', hages⟩ := ha.task p t ht
    exact ⟨t', ht', hages.birth.trans hb, hages.stack.trans hst⟩
  case zombie =>
    intro p t' ht' hz
    obtain ⟨t, ht, hages⟩ := ha.earlier ht'
    obtain ⟨-, -, hcode, hz'⟩ := hages.alive (by simp [hz])
    rw [hages.birth, hages.pid, hcode, ha.log]
    exact h.zombie p t ht (hz'.mp hz)
  case active =>
    intro p t' ht' hz hl
    obtain ⟨t, ht, hages⟩ := ha.earlier ht'
    obtain ⟨hl', -, -, hz'⟩ := hages.alive hl
    rw [hages.birth, ha.log]
    exact h.active p t ht (fun h => hz (hz'.mpr h)) hl'
  case undelivered =>
    intro p t' ht' hl
    obtain ⟨t, ht, hages⟩ := ha.earlier ht'
    rw [hages.birth, ha.log]
    exact h.undelivered p t ht (hages.alive hl).1
  case parents =>
    intro p t' w u' ht' hl hparent hu'
    obtain ⟨t, ht, hages⟩ := ha.earlier ht'
    obtain ⟨u, hu, hages'⟩ := ha.earlier hu'
    obtain ⟨hl', hparent', -, -⟩ := hages.alive hl
    rw [hages.birth, hages'.birth, ha.log]
    exact h.parents p t w u ht hl' (hparent' ▸ hparent) hu
  case orderly =>
    rw [ha.log]
    exact h.orderly

/-- An event that makes and frees no task is logged, and the tasks keep their traits. -/
theorem noted (h : LedgerInv s) {e : TaskEvent} (hmain : s'.mainTask = s.mainTask)
    (hpid : s'.nextPid = s.nextPid) (hlog : s'.log = s.log) (hrecent : e.birth < s.nextPid)
    (hmakes : ∀ w b p stack, .created w b p stack ≠ e) (hfrees : ∀ b, e.freesOf b = false)
    (hkept : ∀ p t, s.task p = some t → ∃ t', s'.task p = some t' ∧ t'.traits = t.traits)
    (hback : ∀ p t', s'.task p = some t' → ∃ t, s.task p = some t ∧ t'.traits = t.traits)
    (zombie : ∀ p t, s'.task p = some t → t.state = .zombie →
      .exited t.birth t.pid t.exitCode ∈ (s'.note e).log)
    (active : ∀ p t, s'.task p = some t → t.state ≠ .zombie → t.state ≠ .dead →
      ∀ e' ∈ (s'.note e).log, ¬ e'.ExitOf t.birth)
    (undelivered : ∀ p t, s'.task p = some t → t.state ≠ .dead →
      ∀ e' ∈ (s'.note e).log, ¬ e'.DeliveryOf t.birth)
    (parents : ∀ p t w u, s'.task p = some t → t.state ≠ .dead → t.parent = some w →
      s'.task w = some u → TaskEvent.parentIn t.birth (s'.note e).log = some u.birth)
    (orderly : TaskEvent.Orderly (s'.note e).log) : LedgerInv (s'.note e) := by
  have hbirth : ∀ {t t' : Task}, t'.traits = t.traits → t'.birth = t.birth :=
    fun he => congrArg (fun x => x.2.2.1) he
  have hstack : ∀ {t t' : Task}, t'.traits = t.traits → t'.kernelStackVirt = t.kernelStackVirt :=
    fun he => congrArg (fun x => x.2.1) he
  constructor
  case recent =>
    intro e' he'
    show e'.birth < s'.nextPid
    rw [hpid]
    rcases List.mem_cons.mp he' with rfl | he'
    · exact hrecent
    · exact h.recent e' (hlog ▸ he')
  case held =>
    intro p t' ht' hp
    obtain ⟨t, ht, he⟩ := hback p t' ht'
    obtain ⟨w, hw⟩ := h.held p t ht (hmain ▸ hp)
    rw [hbirth he, hstack he]
    exact ⟨w, List.mem_cons_of_mem _ (hlog ▸ hw)⟩
  case unfreed =>
    intro p t' ht'
    obtain ⟨t, ht, he⟩ := hback p t' ht'
    show (e :: s'.log).filter _ = []
    rw [hbirth he, hlog, List.filter_cons_of_neg (by simp [hfrees])]
    exact h.unfreed p t ht
  case released =>
    intro w b p stack he
    show _ ∨ (e :: s'.log).filter _ = _
    rw [hlog, List.filter_cons_of_neg (by simp [hfrees])]
    rcases List.mem_cons.mp he with he | he
    · exact absurd he (hmakes w b p stack)
    · refine (h.released w b p stack (hlog ▸ he)).imp_left ?_
      rintro ⟨t, ht, hb, hst⟩
      obtain ⟨t', ht', he⟩ := hkept p t ht
      exact ⟨t', ht', (hbirth he).trans hb, (hstack he).trans hst⟩
  case zombie => exact zombie
  case active => exact active
  case undelivered => exact undelivered
  case parents => exact parents
  case orderly => exact orderly

/-- A task that is replaced by one with the same traits. -/
theorem traits_withTask (ht : s.task p = some t) (htraits : t'.traits = t.traits) :
    (∀ q u, s.task q = some u → ∃ u', (s.withTask p t').task q = some u' ∧ u'.traits = u.traits) ∧
      ∀ q u', (s.withTask p t').task q = some u' → ∃ u, s.task q = some u ∧ u'.traits = u.traits := by
  refine ⟨fun q u hu => ?_, fun q u' hu' => ?_⟩
  · by_cases hq : q = p
    · subst hq
      rw [ht, Option.some.injEq] at hu
      exact ⟨t', withTask_task_self, hu ▸ htraits⟩
    · exact ⟨u, (withTask_task_of_ne hq).trans hu, rfl⟩
  · rw [withTask_task] at hu'
    split_ifs at hu' with hq
    · exact ⟨t, hq ▸ ht, Option.some.inj hu' ▸ htraits⟩
    · exact ⟨u', hu', rfl⟩

/-- A task that runs exits. -/
theorem exited (h : LedgerInv s) (hs : SupplyInv s) (ht : s.task p = some t)
    (hz : t.state ≠ .zombie) (hl : t.state ≠ .dead) (ht' : t'.traits = t.traits)
    (hz' : t'.state = .zombie) (hparent : t'.parent = t.parent) :
    LedgerInv ((s.withTask p t').note (.exited t.birth t.pid t'.exitCode)) := by
  have hbirth : t'.birth = t.birth := congrArg (fun x => x.2.2.1) ht'
  have hpid : t'.pid = t.pid := congrArg Prod.fst ht'
  have hcases : ∀ q u, (s.withTask p t').task q = some u →
      (q = p ∧ u = t') ∨ (q ≠ p ∧ s.task q = some u ∧ u.birth ≠ t.birth) := by
    intro q u hu
    rw [withTask_task] at hu
    split_ifs at hu with hq
    · exact Or.inl ⟨hq, (Option.some.inj hu).symm⟩
    · exact Or.inr ⟨hq, hu, fun he => hq (hs.birth_inj q p u t hu ht he)⟩
  obtain ⟨hkept, hback⟩ := traits_withTask ht ht'
  refine h.noted rfl rfl rfl (hs.birth_lt p t ht) (by simp) (fun _ => rfl) hkept hback ?zombie
    ?active ?undelivered ?parents ?orderly
  case zombie =>
    intro q u hu hzu
    rcases hcases q u hu with ⟨rfl, rfl⟩ | ⟨-, hu, -⟩
    · rw [hbirth, hpid]
      exact List.mem_cons_self
    · exact List.mem_cons_of_mem _ (h.zombie q u hu hzu)
  case active =>
    intro q u hu hzu hlu e he
    rcases hcases q u hu with ⟨rfl, rfl⟩ | ⟨-, hu, hb⟩
    · exact absurd hz' hzu
    · rcases List.mem_cons.mp he with rfl | he
      · exact fun heq => hb heq.symm
      · exact h.active q u hu hzu hlu e he
  case undelivered =>
    intro q u hu hlu e he
    rcases List.mem_cons.mp he with rfl | he
    · exact fun heq => heq
    · rcases hcases q u hu with ⟨rfl, rfl⟩ | ⟨-, hu, -⟩
      · rw [hbirth]
        exact h.undelivered q t ht hl e he
      · exact h.undelivered q u hu hlu e he
  case parents =>
    intro q u w v hu hlu hw hv
    have hv' : ∃ v', s.task w = some v' ∧ v.birth = v'.birth := by
      rcases hcases w v hv with ⟨rfl, rfl⟩ | ⟨-, hv, -⟩
      · exact ⟨t, ht, hbirth⟩
      · exact ⟨v, hv, rfl⟩
    obtain ⟨v', hv', hvb⟩ := hv'
    rw [hvb]
    rcases hcases q u hu with ⟨rfl, rfl⟩ | ⟨-, hu, -⟩
    · rw [hbirth]
      exact h.parents q t w v' ht hl (hparent ▸ hw) hv'
    · exact h.parents q u w v' hu hlu hw hv'
  case orderly => exact ⟨h.active p t ht hz hl, h.orderly⟩

/-- The exit code of a zombie is delivered while the zombie goes to the reaper. -/
theorem delivered (h : LedgerInv s) (hs : SupplyInv s) (ha : Aged s s')
    (ht : s.task p = some t) (hz : t.state = .zombie) (hw : t.parent = some q)
    (hu : s.task q = some u) (hdead : ∀ t', s'.task p = some t' → t'.state = .dead) :
    LedgerInv (s'.note (.delivered u.birth t.birth t.pid t.exitCode)) := by
  have hs' := hs.aged ha
  have h' := h.aged ha
  have hlive : t.state ≠ .dead := by simp [hz]
  have hne : ∀ r v, s'.task r = some v → v.state ≠ .dead → v.birth ≠ t.birth := by
    intro r v hv hl he
    obtain ⟨v', hv', hages⟩ := ha.earlier hv
    have hrp : r = p := hs.birth_inj r p v' t hv' ht (hages.birth.symm.trans he)
    subst hrp
    exact hl (hdead v hv)
  refine h'.noted rfl rfl rfl ?recent (by simp) (fun _ => rfl) (fun _ v hv => ⟨v, hv, rfl⟩)
    (fun _ v hv => ⟨v, hv, rfl⟩) ?zombie ?active ?undelivered h'.parents ?orderly
  case recent =>
    show t.birth < s'.nextPid
    rw [ha.nextPid]
    exact hs.birth_lt p t ht
  case zombie =>
    intro r v hv hzv
    exact List.mem_cons_of_mem _ (h'.zombie r v hv hzv)
  case active =>
    intro r v hv hzv hl e he
    rcases List.mem_cons.mp he with rfl | he
    · exact fun heq => heq
    · exact h'.active r v hv hzv hl e he
  case undelivered =>
    intro r v hv hl e he
    rcases List.mem_cons.mp he with rfl | he
    · exact fun heq => hne r v hv hl heq.symm
    · exact h'.undelivered r v hv hl e he
  case orderly =>
    refine ⟨?_, h'.orderly⟩
    show TaskEvent.Follows s'.log _
    rw [ha.log]
    exact ⟨h.zombie p t ht hz, h.parents p t q u ht hlive hw hu, h.undelivered p t ht hlive⟩

/-- A task is made; the others only grow older. -/
theorem created (h : LedgerInv s) (hs : SupplyInv s) (hfree : s.task new = none)
    (hmain : s'.mainTask = s.mainTask) (hpid : s'.nextPid = s.nextPid + 1)
    (hlog : s'.log = .created u.birth s.nextPid new t'.kernelStackVirt :: s.log)
    (hnew : s'.task new = some t') (hbirth : t'.birth = s.nextPid)
    (hz : t'.state ≠ .zombie) (hparent : t'.parent = none ∨ t'.parent = some q)
    (hq : s.task q = some u)
    (hstranger : ∀ p t, s.task p = some t → t.state ≠ .dead → t.parent ≠ some new)
    (hold : ∀ p t, s.task p = some t → ∃ t'', s'.task p = some t'' ∧ t.Ages t'')
    (hnone : ∀ p, p ≠ new → s.task p = none → s'.task p = none) : LedgerInv s' := by
  have hcases : ∀ p v, s'.task p = some v →
      (p = new ∧ v = t') ∨ ∃ t, s.task p = some t ∧ t.Ages v := by
    intro p v hv
    by_cases hp : p = new
    · subst hp
      rw [hnew, Option.some.injEq] at hv
      exact Or.inl ⟨rfl, hv.symm⟩
    · cases ht : s.task p with
      | none => simp [hnone p hp ht] at hv
      | some t =>
        obtain ⟨v', hv', ha⟩ := hold p t ht
        rw [hv, Option.some.injEq] at hv'
        exact Or.inr ⟨t, rfl, hv' ▸ ha⟩
  have hfresh : ∀ e ∈ s.log, e.birth ≠ s.nextPid := fun e he => (h.recent e he).ne
  constructor
  case recent =>
    intro e he
    rw [hlog, List.mem_cons] at he
    rw [hpid]
    rcases he with rfl | he
    · exact Nat.lt_succ_self _
    · exact (h.recent e he).trans (Nat.lt_succ_self _)
  case held =>
    intro p v hv hp
    rw [hlog]
    rcases hcases p v hv with ⟨rfl, rfl⟩ | ⟨t, ht, ha⟩
    · exact ⟨u.birth, by simp [hbirth]⟩
    · obtain ⟨w, hw⟩ := h.held p t ht (hmain ▸ hp)
      rw [ha.birth, ha.stack]
      exact ⟨w, List.mem_cons_of_mem _ hw⟩
  case unfreed =>
    intro p v hv
    rw [hlog]
    show s.log.filter _ = []
    rcases hcases p v hv with ⟨rfl, rfl⟩ | ⟨t, ht, ha⟩
    · rw [List.filter_eq_nil_iff, hbirth]
      intro e he hf
      exact hfresh e he (TaskEvent.birth_of_freesOf hf)
    · rw [ha.birth]
      exact h.unfreed p t ht
  case released =>
    intro w b p stack he
    rw [hlog] at he ⊢
    show _ ∨ s.log.filter _ = _
    rcases List.mem_cons.mp he with he | he
    · cases he
      exact Or.inl ⟨t', hnew, hbirth, rfl⟩
    · refine (h.released w b p stack he).imp_left ?_
      rintro ⟨t, ht, hb, hst⟩
      obtain ⟨t'', ht'', ha⟩ := hold p t ht
      exact ⟨t'', ht'', ha.birth.trans hb, ha.stack.trans hst⟩
  case zombie =>
    intro p v hv hzv
    rw [hlog]
    rcases hcases p v hv with ⟨rfl, rfl⟩ | ⟨t, ht, ha⟩
    · exact absurd hzv hz
    · obtain ⟨-, -, hcode, hz'⟩ := ha.alive (by simp [hzv])
      rw [ha.birth, ha.pid, hcode]
      exact List.mem_cons_of_mem _ (h.zombie p t ht (hz'.mp hzv))
  case active =>
    intro p v hv hzv hl e he
    rw [hlog, List.mem_cons] at he
    rcases he with rfl | he
    · exact fun heq => heq
    · rcases hcases p v hv with ⟨rfl, rfl⟩ | ⟨t, ht, ha⟩
      · intro hex
        exact hfresh e he (hbirth ▸ TaskEvent.birth_of_exitOf hex)
      · obtain ⟨hl', -, -, hz'⟩ := ha.alive hl
        rw [ha.birth]
        exact h.active p t ht (fun h => hzv (hz'.mpr h)) hl' e he
  case undelivered =>
    intro p v hv hl e he
    rw [hlog, List.mem_cons] at he
    rcases he with rfl | he
    · exact fun heq => heq
    · rcases hcases p v hv with ⟨rfl, rfl⟩ | ⟨t, ht, ha⟩
      · intro hex
        exact hfresh e he (hbirth ▸ TaskEvent.birth_of_deliveryOf hex)
      · rw [ha.birth]
        exact h.undelivered p t ht (ha.alive hl).1 e he
  case parents =>
    intro p v w x hv hl hw hx
    rw [hlog, TaskEvent.parentIn]
    have hxb : w = new ∨ ∃ x', s.task w = some x' ∧ x.birth = x'.birth := by
      rcases hcases w x hx with ⟨rfl, -⟩ | ⟨x', hx', ha⟩
      · exact Or.inl rfl
      · exact Or.inr ⟨x', hx', ha.birth⟩
    rcases hcases p v hv with ⟨rfl, rfl⟩ | ⟨t, ht, ha⟩
    · rw [if_pos hbirth.symm]
      have hwq : q = w := by
        rcases hparent with hn | hs'
        · simp [hn] at hw
        · exact Option.some.inj (hs'.symm.trans hw)
      subst hwq
      rcases hxb with rfl | ⟨x', hx', hb⟩
      · simp [hfree] at hq
      · rw [hq, Option.some.injEq] at hx'
        rw [hb, hx']
    · obtain ⟨hl', hparent', -, -⟩ := ha.alive hl
      have hne : s.nextPid ≠ v.birth := by
        rw [ha.birth]
        exact (hs.birth_lt p t ht).ne'
      rw [if_neg hne, ha.birth]
      rcases hxb with rfl | ⟨x', hx', hb⟩
      · exact absurd (hparent' ▸ hw) (hstranger p t ht hl')
      · rw [hb]
        exact h.parents p t w x' ht hl' (hparent' ▸ hw) hx'
  case orderly =>
    rw [hlog]
    exact ⟨trivial, h.orderly⟩

/-- A task gets another parent. -/
theorem adopted (h : LedgerInv s) (hs : SupplyInv s) (ht : s.task c = some t) (hu : s.task q = some u) (htraits : t'.traits = t.traits)
    (hstate : t'.state = t.state) (hcode : t'.exitCode = t.exitCode)
    (hparent : t'.parent = some q) :
    LedgerInv ((s.withTask c t').note (.adopted u.birth t.birth)) := by
  have hbirth : t'.birth = t.birth := congrArg (fun x => x.2.2.1) htraits
  have hpid : t'.pid = t.pid := congrArg Prod.fst htraits
  have hcases : ∀ p v, (s.withTask c t').task p = some v → ∃ v', s.task p = some v' ∧
      v.birth = v'.birth ∧ v.pid = v'.pid ∧
      v.state = v'.state ∧ v.exitCode = v'.exitCode ∧ (p ≠ c → v.parent = v'.parent) := by
    intro p v hv
    rw [withTask_task] at hv
    split_ifs at hv with hp
    · rw [Option.some.injEq] at hv
      subst hv hp
      exact ⟨t, ht, hbirth, hpid, hstate, hcode, fun hne => absurd rfl hne⟩
    · exact ⟨v, hv, rfl, rfl, rfl, rfl, fun _ => rfl⟩
  obtain ⟨hkept, hback⟩ := traits_withTask ht htraits
  refine h.noted rfl rfl rfl (hs.birth_lt c t ht) (by simp) (fun _ => rfl) hkept hback ?zombie
    ?active ?undelivered ?parents ?orderly
  case zombie =>
    intro p v hv hz
    obtain ⟨v', hv', hb, hp, hst, hco, -⟩ := hcases p v hv
    rw [hb, hp, hco]
    exact List.mem_cons_of_mem _ (h.zombie p v' hv' (hst ▸ hz))
  case active =>
    intro p v hv hz hlv e he
    obtain ⟨v', hv', hb, -, hst, -⟩ := hcases p v hv
    rcases List.mem_cons.mp he with rfl | he
    · exact fun heq => heq
    · rw [hb]
      exact h.active p v' hv' (hst ▸ hz) (hst ▸ hlv) e he
  case undelivered =>
    intro p v hv hlv e he
    obtain ⟨v', hv', hb, -, hst, -⟩ := hcases p v hv
    rcases List.mem_cons.mp he with rfl | he
    · exact fun heq => heq
    · rw [hb]
      exact h.undelivered p v' hv' (hst ▸ hlv) e he
  case parents =>
    intro p v w x hv hlv hw hx
    obtain ⟨v', hv', hb, -, hst, -, hpar⟩ := hcases p v hv
    obtain ⟨x', hx', hxb, -⟩ := hcases w x hx
    rw [hb, hxb]
    show (if t.birth = v'.birth then some u.birth else TaskEvent.parentIn v'.birth s.log) = _
    by_cases hp : p = c
    · subst hp
      rw [ht, Option.some.injEq] at hv'
      subst hv'
      obtain rfl : t' = v := Option.some.inj (withTask_task_self.symm.trans hv)
      obtain rfl : q = w := Option.some.inj (hparent.symm.trans hw)
      rw [hu, Option.some.injEq] at hx'
      rw [if_pos rfl, hx']
    · rw [if_neg fun he => hp (hs.birth_inj p c v' t hv' ht he.symm)]
      exact h.parents p v' w x' hv' (hst ▸ hlv) (hpar hp ▸ hw) hx'
  case orderly => exact ⟨trivial, h.orderly⟩

/-- The stack and the block of a dead task are given back. -/
theorem freed (h : LedgerInv s) (hs : SupplyInv s) (ht : s.task p = some t)
    (hfree : s'.task = Function.update s.task p none) (hmain : s'.mainTask = s.mainTask)
    (hpid : s'.nextPid = s.nextPid)
    (hlog : s'.log = .freedPcb t.birth p :: .freedStack t.birth t.kernelStackVirt :: s.log) :
    LedgerInv s' := by
  have hcases : ∀ q v, s'.task q = some v → q ≠ p ∧ s.task q = some v := by
    intro q v hv
    rw [hfree, Function.update_apply] at hv
    split_ifs at hv with hq
    exact ⟨hq, hv⟩
  have hne : ∀ q v, s'.task q = some v → t.birth ≠ v.birth := by
    intro q v hv he
    obtain ⟨hq, hv⟩ := hcases q v hv
    exact hq (hs.birth_inj q p v t hv ht he.symm)
  have hmem : ∀ e ∈ s'.log, e = .freedPcb t.birth p ∨
      e = .freedStack t.birth t.kernelStackVirt ∨ e ∈ s.log := by
    intro e he
    rw [hlog] at he
    simpa using he
  have hold : ∀ e ∈ s.log, e ∈ s'.log := by
    intro e he
    rw [hlog]
    simp [he]
  constructor
  case recent =>
    intro e he
    rw [hpid]
    rcases hmem e he with rfl | rfl | he
    · exact hs.birth_lt p t ht
    · exact hs.birth_lt p t ht
    · exact h.recent e he
  case held =>
    intro q v hv hq
    obtain ⟨w, hw⟩ := h.held q v (hcases q v hv).2 (hmain ▸ hq)
    exact ⟨w, hold _ hw⟩
  case unfreed =>
    intro q v hv
    have := h.unfreed q v (hcases q v hv).2
    rw [hlog]
    simpa [TaskEvent.freesOf, hne q v hv] using this
  case released =>
    intro w b q stack he
    have he' : .created w b q stack ∈ s.log := by
      rcases hmem _ he with he | he | he
      · exact absurd he (by simp)
      · exact absurd he (by simp)
      · exact he
    by_cases hb : t.birth = b
    · right
      -- the task that was born so is the one that goes
      rcases h.released w b q stack he' with ⟨v, hv, hvb, hstack⟩ | hdone
      · have hqp : q = p := hs.birth_inj q p v t hv ht (hvb.trans hb.symm)
        subst hqp
        rw [ht] at hv
        cases hv
        have hnone := h.unfreed q t ht
        rw [hlog, ← hb, ← hstack, List.filter_cons_of_pos (by simp [TaskEvent.freesOf]),
          List.filter_cons_of_pos (by simp [TaskEvent.freesOf]), hnone]
      · have hnone := h.unfreed p t ht
        rw [hb, hdone] at hnone
        simp at hnone
    · rcases h.released w b q stack he' with ⟨v, hv, hvb⟩ | hdone
      · left
        refine ⟨v, ?_, hvb⟩
        rw [hfree, Function.update_of_ne, hv]
        rintro rfl
        rw [ht, Option.some.injEq] at hv
        exact hb (hv ▸ hvb.1)
      · right
        rw [hlog]
        simpa [TaskEvent.freesOf, hb] using hdone
  case zombie =>
    intro q v hv hz
    exact hold _ (h.zombie q v (hcases q v hv).2 hz)
  case active =>
    intro q v hv hz hl e he
    rcases hmem e he with rfl | rfl | he
    · exact fun heq => heq
    · exact fun heq => heq
    · exact h.active q v (hcases q v hv).2 hz hl e he
  case undelivered =>
    intro q v hv hl e he
    rcases hmem e he with rfl | rfl | he
    · exact fun heq => heq
    · exact fun heq => heq
    · exact h.undelivered q v (hcases q v hv).2 hl e he
  case parents =>
    intro q v w x hv hl hw hx
    rw [hlog]
    exact h.parents q v w x (hcases q v hv).2 hl hw (hcases w x hx).2
  case orderly =>
    rw [hlog]
    exact ⟨trivial, trivial, h.orderly⟩

end LedgerInv
end Scheduler
end EnclaveOS
