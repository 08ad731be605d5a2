import EnclaveOS.Arm.ArmScheduler

/-!
# ArmSchedulerRuns - invariants of the ARM scheduler

A caller of `schedule` parks the current task: it keeps it running, frees it or puts it to
sleep.  The search then always finds a ready task, since task 0 is among the candidates, and
none of the fallback branches is taken.
-/

namespace EnclaveOS
namespace ArmScheduler

variable {s s' s'' : ArmScheduler} {sp : ArmStackPointer} {op : ArmTaskOp} {i : Nat}

@[simp] theorem setState_self (s : ArmScheduler) (i : Nat) (state : ArmTaskState) :
    (s.setState i state).tasks i = { s.tasks i with state := state } :=
  Function.update_self ..

theorem setState_of_ne {i j : Nat} (h : j ≠ i) (s : ArmScheduler) (state : ArmTaskState) :
    (s.setState i state).tasks j = s.tasks j :=
  Function.update_of_ne h ..

theorem armContextSwitch_self (s : ArmScheduler) (prev next : Nat) (sp : ArmStackPointer) :
    (s.armContextSwitch prev next sp).tasks prev = { s.tasks prev with sp := sp.addr } :=
  Function.update_self ..

theorem armContextSwitch_of_ne {prev : Nat} (h : i ≠ prev) (s : ArmScheduler) (next : Nat)
    (sp : ArmStackPointer) : (s.armContextSwitch prev next sp).tasks i = s.tasks i :=
  Function.update_of_ne h ..

/-- The search comes around to task 0. -/
theorem candidates_zero (h : s.currentTask < s.numTasks) : 0 ∈ s.candidates := by
  apply List.mem_map.mpr
  refine ⟨s.numTasks - 1 - s.currentTask, List.mem_range.mpr (by omega), ?_⟩
  rw [show s.currentTask + 1 + (s.numTasks - 1 - s.currentTask) = s.numTasks by omega]
  exact Nat.mod_self _

theorem mem_candidates (h : i ∈ s.candidates) : i < s.numTasks := by
  obtain ⟨k, hk, rfl⟩ := List.mem_map.mp h
  rw [List.mem_range] at hk
  exact Nat.mod_lt _ (by omega)

/-- When idle is ready the search finds a ready task. -/
theorem nextReady_spec (h : s.currentTask < s.numTasks) (hidle : (s.tasks 0).state = .ready) :
    ∃ next, s.nextReady = some next ∧ next < s.numTasks ∧ (s.tasks next).state = .ready := by
  have hsome : s.nextReady.isSome := by
    apply List.find?_isSome.mpr
    exact ⟨0, candidates_zero h, by simpa using hidle⟩
  obtain ⟨next, hnext⟩ := Option.isSome_iff_exists.mp hsome
  refine ⟨next, hnext, mem_candidates (List.mem_of_find?_eq_some hnext), ?_⟩
  simpa using List.find?_some hnext

/-- What `schedule` does to a task. -/
structure Scheduled (t t' : ArmTask) : Prop where
  awake : t.Awake → t'.Awake
  parked : ¬ t.Awake → t'.state = t.state
  wakeupTick : t'.wakeupTick = t.wakeupTick

/-- What a step that ends at `tick` does to a task: it does not bring back a freed one, and
wakes one that sleeps only if it is due. -/
structure TaskKept (t t' : ArmTask) (tick : Nat) : Prop where
  freed : t.state = .free → t'.state = .free
  asleep : t.state = .sleeping →
    t'.state = .sleeping ∧ t'.wakeupTick = t.wakeupTick ∨ t'.Awake ∧ t.wakeupTick ≤ tick

theorem TaskKept.refl (t : ArmTask) (tick : Nat) : TaskKept t t tick :=
  ⟨id, fun h => Or.inl ⟨h, rfl⟩⟩

theorem TaskKept.schedule {t t' t'' : ArmTask} {tick : Nat} (h : TaskKept t t' tick)
    (h' : Scheduled t' t'') : TaskKept t t'' tick := by
  constructor
  · intro hfree
    have hfree' := h.freed hfree
    rw [h'.parked (by simp [ArmTask.Awake, hfree']), hfree']
  · intro hsleep
    rcases h.asleep hsleep with ⟨hsleep', htick⟩ | ⟨hawake, hdue⟩
    · rw [h'.parked (by simp [ArmTask.Awake, hsleep']), h'.wakeupTick]
      exact Or.inl ⟨hsleep', htick⟩
    · exact Or.inr ⟨h'.awake hawake, hdue⟩

theorem TaskKept.of_running {t t' : ArmTask} (h : t.state = .running) (tick : Nat) :
    TaskKept t t' tick :=
  ⟨fun hfree => by simp [h] at hfree, fun hsleep => by simp [h] at hsleep⟩

/-- One task runs, the current one, and idle can run. -/
structure ArmInv (s : ArmScheduler) : Prop where
  current : s.currentTask < s.numTasks
  running : ∀ i, (s.tasks i).state = .running ↔ i = s.currentTask
  idle : (s.tasks 0).state = .ready ∨ (s.tasks 0).state = .running
  beyond : ∀ i, s.numTasks ≤ i → (s.tasks i).state = .free
  sp : ∀ i, i < s.numTasks → i ≠ s.currentTask → (s.tasks i).sp ≠ 0

/-- The state `schedule` is called in: no other task runs, and idle can run unless it is the
current task and runs. -/
structure Parked (s : ArmScheduler) : Prop where
  current : s.currentTask < s.numTasks
  running : ∀ i, (s.tasks i).state = .running → i = s.currentTask
  idle : (s.tasks 0).state = .ready ∨ (s.tasks 0).state = .running
  beyond : ∀ i, s.numTasks ≤ i → (s.tasks i).state = .free
  sp : ∀ i, i < s.numTasks → i ≠ s.currentTask → (s.tasks i).sp ≠ 0

theorem ArmInv.parked (h : ArmInv s) : Parked s :=
  ⟨h.current, fun i hi => (h.running i).mp hi, h.idle, h.beyond, h.sp⟩

/-- Switching to a task when none runs. -/
theorem switchTo_spec {next : Nat} (h : Parked s)
    (hnone : ∀ i, (s.tasks i).state ≠ .running) (hnext : next < s.numTasks)
    (sp : ArmStackPointer) :
    ∃ s', s.switchTo next sp = some s' ∧ ArmInv s' ∧ s'.currentTask = next ∧
      s'.numTasks = s.numTasks ∧ s'.tickCount = s.tickCount ∧
      ∀ i, (s'.tasks i).state = (if i = next then .running else (s.tasks i).state) ∧
        (s'.tasks i).wakeupTick = (s.tasks i).wakeupTick := by
  have hidle : (s.tasks 0).state = .ready := h.idle.resolve_right (hnone 0)
  -- The invariant follows from the states of the tasks and from the stored stack pointers.
  have hinv : ∀ s' : ArmScheduler, s'.currentTask = next → s'.numTasks = s.numTasks →
      (∀ i, (s'.tasks i).state = (if i = next then .running else (s.tasks i).state)) →
      (∀ i, i < s.numTasks → i ≠ next → (s'.tasks i).sp ≠ 0) → ArmInv s' := by
    intro s' hcur hnum hstate hsp
    refine ⟨hcur ▸ hnum ▸ hnext, fun i => ?_, ?_, fun i hi => ?_, fun i hi hne => ?_⟩
    · rw [hstate, hcur]
      by_cases hi : i = next
      · simp [hi]
      · simp [hi, hnone i]
    · rw [hstate]
      split_ifs
      · exact Or.inr rfl
      · exact Or.inl hidle
    · rw [hnum] at hi
      rw [hstate, if_neg (by omega)]
      exact h.beyond i hi
    · rw [hnum] at hi
      rw [hcur] at hne
      exact hsp i hi hne
  unfold switchTo
  by_cases hsame : next = s.currentTask
  · rw [if_pos hsame]
    have hstate : ∀ i, ((s.setState next .running).tasks i).state =
          (if i = next then .running else (s.tasks i).state) ∧
        ((s.setState next .running).tasks i).wakeupTick = (s.tasks i).wakeupTick := by
      intro i
      by_cases hi : i = next
      · simp [hi]
      · simp [hi, setState_of_ne]
    refine ⟨_, rfl, hinv _ hsame.symm rfl (fun i => (hstate i).1) fun i hi hne => ?_,
      hsame.symm, rfl, rfl, hstate⟩
    rw [setState_of_ne hne]
    exact h.sp i hi (hsame ▸ hne)
  · rw [if_neg hsame, if_neg (h.sp next hnext hsame)]
    have htask : ∀ i, (armContextSwitch
        { s.setState next .running with currentTask := next } s.currentTask next sp).tasks i =
          if i = s.currentTask then { s.tasks i with sp := sp.addr }
          else if i = next then { s.tasks i with state := .running } else s.tasks i := by
      intro i
      by_cases hi : i = s.currentTask
      · rw [if_pos hi, hi, armContextSwitch_self, setState_of_ne (Ne.symm hsame)]
      · rw [if_neg hi, armContextSwitch_of_ne hi]
        by_cases hi' : i = next
        · rw [if_pos hi', hi', setState_self]
        · rw [if_neg hi', setState_of_ne hi']
    have hstate : ∀ i, ((armContextSwitch
        { s.setState next .running with currentTask := next } s.currentTask next sp).tasks i).state =
          (if i = next then .running else (s.tasks i).state) ∧
        ((armContextSwitch { s.setState next .running with currentTask := next }
          s.currentTask next sp).tasks i).wakeupTick = (s.tasks i).wakeupTick := by
      intro i
      rw [htask]
      by_cases hi : i = s.currentTask
      · rw [if_pos hi, if_neg (by rw [hi]; exact Ne.symm hsame)]
        exact ⟨rfl, rfl⟩
      · rw [if_neg hi]
        split_ifs <;> exact ⟨rfl, rfl⟩
    refine ⟨_, rfl, hinv _ rfl rfl (fun i => (hstate i).1) fun i hi hne => ?_, rfl, rfl, rfl,
      hstate⟩
    rw [htask, if_neg hne]
    split_ifs with hi'
    · exact sp.pos
    · exact h.sp i hi hi'

/-- `schedule` comes back with one running task, the current one, which was ready or is the
task that ran before; it changes no other state. -/
theorem Parked.schedule (h : Parked s) (sp : ArmStackPointer) :
    ∃ s', s.schedule sp = some s' ∧ ArmInv s' ∧ s'.numTasks = s.numTasks ∧
      s'.tickCount = s.tickCount ∧
      ((s.tasks s'.currentTask).state = .ready ∨ (s.tasks s'.currentTask).state = .running) ∧
      ∀ i, Scheduled (s.tasks i) (s'.tasks i) := by
  unfold ArmScheduler.schedule
  -- The current task goes back to the ready ones if it ran.
  obtain ⟨s₁, hs₁⟩ : ∃ s₁, s₁ = if (s.tasks s.currentTask).state = .running then
      s.setState s.currentTask .ready else s := ⟨_, rfl⟩
  have hfields : s₁.currentTask = s.currentTask ∧ s₁.numTasks = s.numTasks ∧
      s₁.tickCount = s.tickCount := by
    rw [hs₁]
    split_ifs <;> exact ⟨rfl, rfl, rfl⟩
  have htask : ∀ i, (s₁.tasks i).state =
        (if (s.tasks i).state = .running then .ready else (s.tasks i).state) ∧
      (s₁.tasks i).wakeupTick = (s.tasks i).wakeupTick ∧ (s₁.tasks i).sp = (s.tasks i).sp := by
    intro i
    rw [hs₁]
    by_cases hi : i = s.currentTask
    · subst hi
      split_ifs with hrun
      · simp
      · simp
    · have hnot : (s.tasks i).state ≠ .running := fun hrun => hi (h.running i hrun)
      rw [if_neg hnot]
      split_ifs with hrun
      · rw [setState_of_ne hi]
        exact ⟨rfl, rfl, rfl⟩
      · exact ⟨rfl, rfl, rfl⟩
  have hnone : ∀ i, (s₁.tasks i).state ≠ .running := by
    intro i
    rw [(htask i).1]
    split_ifs with hrun
    · simp
    · exact hrun
  have hidle : (s₁.tasks 0).state = .ready := by
    rw [(htask 0).1]
    rcases h.idle with hidle | hidle <;> simp [hidle]
  have hparked : Parked s₁ := by
    refine ⟨?_, fun i hi => absurd hi (hnone i), Or.inl hidle, fun i hi => ?_, fun i hi hne => ?_⟩
    · rw [hfields.1, hfields.2.1]
      exact h.current
    · rw [hfields.2.1] at hi
      rw [(htask i).1, h.beyond i hi]
      rfl
    · rw [hfields.2.1] at hi
      rw [hfields.1] at hne
      rw [(htask i).2.2]
      exact h.sp i hi hne
  obtain ⟨next, hfound, hlt, hready⟩ := nextReady_spec hparked.current hidle
  obtain ⟨s', hswitch, hinv, hcur, hnum, htick, hstate⟩ :=
    switchTo_spec hparked hnone hlt sp
  rw [← hs₁]
  dsimp only
  rw [hfound]
  refine ⟨s', hswitch, hinv, hnum.trans hfields.2.1, htick.trans hfields.2.2, ?_, fun i => ?_⟩
  · rw [hcur]
    rw [(htask next).1] at hready
    split_ifs at hready with hrun
    · exact Or.inr hrun
    · exact Or.inl hready
  · refine ⟨fun hawake => ?_, fun hawake => ?_, (hstate i).2.trans (htask i).2.1⟩
    · unfold ArmTask.Awake at hawake ⊢
      rw [(hstate i).1, (htask i).1]
      rcases hawake with hi | hi <;> simp [hi] <;> tauto
    · have hi : i ≠ next := by
        rintro rfl
        rw [(htask i).1] at hready
        unfold ArmTask.Awake at hawake
        split_ifs at hready <;> tauto
      rw [(hstate i).1, if_neg hi, (htask i).1, if_neg fun hrun => hawake (Or.inr hrun)]

/-- Freeing the current task parks it, and changes no other task. -/
theorem ArmInv.freeCurrent (h : ArmInv s) (hcur : s.currentTask ≠ 0) :
    Parked s.freeCurrent ∧ s.freeCurrent.currentTask = s.currentTask ∧
      (s.freeCurrent.tasks s.currentTask).state = .free ∧
      ∀ i, i ≠ s.currentTask → s.freeCurrent.tasks i = s.tasks i := by
  have hidle : (s.tasks 0).state = .ready :=
    h.idle.resolve_right fun hrun => hcur ((h.running 0).mp hrun).symm
  -- Idle is ready already, so it is written once more.
  have hother : ∀ i, i ≠ s.currentTask → s.freeCurrent.tasks i = s.tasks i := by
    intro i hi
    unfold ArmScheduler.freeCurrent
    dsimp only
    split_ifs with hrun
    · by_cases hzero : i = 0
      · subst hzero
        rw [setState_self, setState_of_ne hi, ← hidle]
      · rw [setState_of_ne hzero, setState_of_ne hi]
    · rw [setState_of_ne hi]
  have hfree : (s.freeCurrent.tasks s.currentTask).state = .free := by
    unfold ArmScheduler.freeCurrent
    dsimp only
    split_ifs with hrun
    · rw [setState_of_ne hcur, setState_self]
    · rw [setState_self]
  have hfields : s.freeCurrent.currentTask = s.currentTask ∧
      s.freeCurrent.numTasks = s.numTasks := by
    unfold ArmScheduler.freeCurrent
    dsimp only
    split_ifs <;> exact ⟨rfl, rfl⟩
  refine ⟨⟨?_, fun i hi => ?_, ?_, fun i hi => ?_, fun i hi hne => ?_⟩, hfields.1, hfree, hother⟩
  · rw [hfields.1, hfields.2]
    exact h.current
  · by_cases hi' : i = s.currentTask
    · exact hi'.trans hfields.1.symm
    · rw [hother i hi'] at hi
      exact absurd ((h.running i).mp hi) hi'
  · rw [hother 0 (Ne.symm hcur)]
    exact h.idle
  · rw [hfields.2] at hi
    have hlt := h.current
    rw [hother i (by omega)]
    exact h.beyond i hi
  · rw [hfields.2] at hi
    rw [hfields.1] at hne
    rw [hother i hne]
    exact h.sp i hi hne

/-- Putting the current task to sleep parks it, and changes no other task. -/
theorem ArmInv.sleepUntil (h : ArmInv s) (hcur : s.currentTask ≠ 0) (tick : Nat) :
    Parked (s.sleepUntil tick) ∧
      (((s.sleepUntil tick).tasks s.currentTask).state = .sleeping ∧
        ((s.sleepUntil tick).tasks s.currentTask).wakeupTick = tick) ∧
      ∀ i, i ≠ s.currentTask → (s.sleepUntil tick).tasks i = s.tasks i := by
  have hself : (s.sleepUntil tick).tasks s.currentTask =
      { s.tasks s.currentTask with wakeupTick := tick, state := .sleeping } :=
    Function.update_self ..
  have hother : ∀ i, i ≠ s.currentTask → (s.sleepUntil tick).tasks i = s.tasks i :=
    fun i hi => Function.update_of_ne hi ..
  refine ⟨⟨h.current, fun i hi => ?_, ?_, fun i hi => ?_, fun i hi hne => ?_⟩, ?_, hother⟩
  · by_cases hi' : i = s.currentTask
    · exact hi'
    · rw [hother i hi'] at hi
      exact (h.running i).mp hi
  · rw [hother 0 (Ne.symm hcur)]
    exact h.idle
  · have hi' : s.numTasks ≤ i := hi
    have hlt := h.current
    rw [hother i (by omega)]
    exact h.beyond i hi'
  · rw [hother i hne]
    exact h.sp i hi hne
  · rw [hself]
    exact ⟨rfl, rfl⟩

/-- Waking the tasks that are due. -/
theorem ArmInv.armTaskCheckWakeup (h : ArmInv s) (tick : Nat) :
    ArmInv (s.armTaskCheckWakeup tick) ∧
      ∀ i, TaskKept (s.tasks i) ((s.armTaskCheckWakeup tick).tasks i) tick := by
  have htask : ∀ i, (s.armTaskCheckWakeup tick).tasks i =
      if i < s.numTasks ∧ (s.tasks i).state = .sleeping ∧ (s.tasks i).wakeupTick ≤ tick
      then { s.tasks i with state := .ready } else s.tasks i := fun _ => rfl
  refine ⟨⟨h.current, fun i => ?_, ?_, fun i hi => ?_, fun i hi hne => ?_⟩, fun i => ?_⟩
  · rw [htask]
    split_ifs with hdue
    · have hrunning := h.running i
      rw [hdue.2.1] at hrunning
      constructor
      · intro hready
        cases hready
      · intro hcur
        cases hrunning.mpr hcur
    · exact h.running i
  · rw [htask, if_neg]
    · exact h.idle
    · rintro ⟨-, hsleep, -⟩
      rcases h.idle with hidle | hidle <;> simp [hidle] at hsleep
  · have hi' : s.numTasks ≤ i := hi
    rw [htask, if_neg (by omega)]
    exact h.beyond i hi'
  · rw [htask]
    split_ifs <;> exact h.sp i hi hne
  · rw [htask]
    split_ifs with hdue
    · exact ⟨fun hfree => by simp [hdue.2.1] at hfree, fun _ => Or.inr ⟨Or.inl rfl, hdue.2.2⟩⟩
    · exact .refl _ _

/-- What `schedule` keeps of the tasks when the current one has been parked. -/
theorem ArmInv.park (h : ArmInv s) {s₁ : ArmScheduler} (hparked : Parked s₁)
    (hother : ∀ i, i ≠ s.currentTask → s₁.tasks i = s.tasks i) (sp : ArmStackPointer) :
    ∃ s', s₁.schedule sp = some s' ∧ ArmInv s' ∧
      ((s₁.tasks s'.currentTask).state = .ready ∨ (s₁.tasks s'.currentTask).state = .running) ∧
      ∀ i, TaskKept (s.tasks i) (s'.tasks i) s'.tickCount := by
  obtain ⟨s', hschedule, hinv, -, -, hchosen, hkept⟩ := hparked.schedule sp
  refine ⟨s', hschedule, hinv, hchosen, fun i => ?_⟩
  by_cases hi : i = s.currentTask
  · exact .of_running ((h.running i).mpr hi) _
  · rw [← hother i hi]
    exact (TaskKept.refl _ _).schedule (hkept i)

/-- No step halts, and each keeps the invariant. -/
theorem ArmInv.step (h : ArmInv s) (hop : s.Offered op) :
    ∃ s', s.step op = some s' ∧ ArmInv s' ∧
      ∀ i, TaskKept (s.tasks i) (s'.tasks i) s'.tickCount := by
  have hsame : ∃ s', some s = some s' ∧ ArmInv s' ∧
      ∀ i, TaskKept (s.tasks i) (s'.tasks i) s'.tickCount := ⟨s, rfl, h, fun i => .refl _ _⟩
  cases op with
  | halTimerTick sp =>
    have hticked : ArmInv { s with tickCount := wrap64 (s.tickCount + 1) } :=
      ⟨h.current, h.running, h.idle, h.beyond, h.sp⟩
    obtain ⟨hwoken, hkept⟩ := hticked.armTaskCheckWakeup (wrap64 (s.tickCount + 1))
    simp only [ArmScheduler.step, ArmScheduler.halTimerTick]
    split_ifs
    · have hparked : Parked { ({ s with tickCount := wrap64 (s.tickCount + 1) } :
          ArmScheduler).armTaskCheckWakeup (wrap64 (s.tickCount + 1)) with
          quantumCounter := 0 } :=
        ⟨hwoken.current, hwoken.parked.running, hwoken.idle, hwoken.beyond, hwoken.sp⟩
      obtain ⟨s', hschedule, hinv, -, htick, -, hkept'⟩ := hparked.schedule sp
      refine ⟨s', hschedule, hinv, fun i => ?_⟩
      rw [htick]
      exact (hkept i).schedule (hkept' i)
    · exact ⟨_, rfl, ⟨hwoken.current, hwoken.running, hwoken.idle, hwoken.beyond, hwoken.sp⟩, hkept⟩
  | armTaskYield sp =>
    obtain ⟨s', hschedule, hinv, -, hkept⟩ := h.park h.parked (fun _ _ => rfl) sp
    exact ⟨s', hschedule, hinv, hkept⟩
  | armTaskExit sp =>
    simp only [ArmScheduler.step, ArmScheduler.armTaskExit]
    rw [if_neg hop]
    obtain ⟨hparked, -, -, hother⟩ := h.freeCurrent hop
    obtain ⟨s', hschedule, hinv, -, hkept⟩ := h.park hparked hother sp
    exact ⟨s', hschedule, hinv, hkept⟩
  | armTaskSetSleep ms sp =>
    simp only [ArmScheduler.step, ArmScheduler.armTaskSetSleep]
    split_ifs
    · exact hsame
    · exact hsame
    · obtain ⟨hparked, -, hother⟩ := h.sleepUntil hop (wrap64 (s.tickCount + ms))
      obtain ⟨s', hschedule, hinv, -, hkept⟩ := h.park hparked hother sp
      exact ⟨s', hschedule, hinv, hkept⟩
  | armTaskCheckWakeup =>
    obtain ⟨hinv, hkept⟩ := h.armTaskCheckWakeup s.tickCount
    exact ⟨_, rfl, hinv, hkept⟩
  | armTaskFaultKill sp =>
    have hlt := h.current
    simp only [ArmScheduler.step, ArmScheduler.armTaskFaultKill]
    rw [if_neg (not_or.mpr ⟨hop, Nat.not_le.mpr hlt⟩)]
    obtain ⟨hparked, -, hfree, hother⟩ := h.freeCurrent hop
    obtain ⟨s', hschedule, hinv, hchosen, hkept⟩ := h.park hparked hother sp
    -- The killed task is not chosen, so `schedule` does not come back to it.
    have hne : s'.currentTask ≠ s.currentTask := by
      intro hsame
      rw [hsame, hfree] at hchosen
      rcases hchosen with hchosen | hchosen <;> cases hchosen
    refine ⟨s', ?_, hinv, hkept⟩
    rw [hschedule, Option.bind_eq_bind, Option.bind_some, if_neg hne]

theorem armTaskCreateUser_sp (s : ArmScheduler) (id : Nat) (user : ArmUserTask) :
    ((s.armTaskCreateUser id user).tasks id).state = .ready ∧
      ((s.armTaskCreateUser id user).tasks id).sp ≠ 0 := by
  have hfits := user.kstackFits
  have hself : (s.armTaskCreateUser id user).tasks id = { s.tasks id with
      sp := wrap32 (wrap32 (user.kstackBase + armTaskStackSize) / 8 * 8 + 4294967296 - 40)
      ttbr0Phys := user.space, state := .ready } := Function.update_self ..
  rw [hself]
  refine ⟨rfl, ?_⟩
  dsimp only
  unfold armTaskStackSize wrap32 at *
  omega

theorem createUsers_spec (users : List ArmUserTask) (s : ArmScheduler) (id : Nat) :
    (s.createUsers id users).currentTask = s.currentTask ∧
      (s.createUsers id users).numTasks = s.numTasks ∧
      (∀ i, id ≤ i → i < id + users.length →
        ((s.createUsers id users).tasks i).state = .ready ∧
          ((s.createUsers id users).tasks i).sp ≠ 0) ∧
      ∀ i, i < id ∨ id + users.length ≤ i → (s.createUsers id users).tasks i = s.tasks i := by
  induction users generalizing s id with
  | nil => exact ⟨rfl, rfl, fun i hi hi' => absurd hi' (Nat.not_lt.mpr hi), fun _ _ => rfl⟩
  | cons user users ih =>
    obtain ⟨hcur, hnum, hnew, hold⟩ := ih (s.armTaskCreateUser id user) (id + 1)
    rw [createUsers, List.length_cons]
    refine ⟨hcur, hnum, fun i hi hi' => ?_, fun i hi => ?_⟩
    · by_cases hid : i = id
      · subst hid
        rw [hold i (Or.inl (Nat.lt_succ_self i))]
        exact armTaskCreateUser_sp s i user
      · exact hnew i (by omega) (by omega)
    · rw [hold i (by omega)]
      exact Function.update_of_ne (by omega) ..

theorem ArmInv.start (tasks : ArmTasks) : ArmInv tasks.start := by
  obtain ⟨hcur, hnum, hnew, hold⟩ := createUsers_spec tasks.users tasks.idleOnly 1
  have hcur' : tasks.start.currentTask = 0 := hcur
  have hnum' : tasks.start.numTasks = 1 + tasks.users.length := hnum
  have hidle : (tasks.start.tasks 0).state = .running :=
    congrArg ArmTask.state (hold 0 (Or.inl Nat.zero_lt_one))
  have hbeyond : ∀ i, 1 + tasks.users.length ≤ i → (tasks.start.tasks i).state = .free := by
    intro i hi
    have hempty : tasks.idleOnly.tasks i = ⟨0, 0, .free, 0⟩ := by
      have hne : i ≠ 0 := by omega
      simp [ArmTasks.idleOnly, hne]
    rw [ArmTasks.start, hold i (Or.inr hi), hempty]
  refine ⟨?_, fun i => ?_, Or.inr hidle, fun i hi => ?_, fun i hi hne => ?_⟩
  · omega
  · rw [hcur']
    constructor
    · intro hrun
      by_contra hi
      by_cases hlt : i < 1 + tasks.users.length
      · have hready : (tasks.start.tasks i).state = .ready := (hnew i (by omega) hlt).1
        rw [hrun] at hready
        cases hready
      · rw [hbeyond i (by omega)] at hrun
        cases hrun
    · rintro rfl
      exact hidle
  · exact hbeyond i (by omega)
  · exact (hnew i (by omega) (by omega)).2

theorem ArmInv.of_step (h : ArmInv s) (hop : s.Offered op) (hstep : s.step op = some s') :
    ArmInv s' ∧ ∀ i, TaskKept (s.tasks i) (s'.tasks i) s'.tickCount := by
  obtain ⟨s₁, hstep₁, hinv, hkept⟩ := h.step hop
  rw [hstep] at hstep₁
  cases hstep₁
  exact ⟨hinv, hkept⟩

theorem ArmInv.of_run (h : ArmInv s) (hrun : Reach ArmScheduler.step Offered s s') : ArmInv s' :=
  hrun.invariant h fun _ _ _ hs hop hstep => (hs.of_step hop hstep).1

/-- A freed task stays freed, and does not run again. -/
theorem ArmInv.freed (h : ArmInv s) (hfree : (s.tasks i).state = .free)
    (hrun : Reach ArmScheduler.step Offered s s') :
    (s'.tasks i).state = .free ∧ s'.currentTask ≠ i := by
  have hkept : ArmInv s' ∧ (s'.tasks i).state = .free :=
    hrun.invariant (P := fun s => ArmInv s ∧ (s.tasks i).state = .free) ⟨h, hfree⟩
      fun _ _ _ hs hop hstep =>
        ⟨(hs.1.of_step hop hstep).1, ((hs.1.of_step hop hstep).2 i).freed hs.2⟩
  refine ⟨hkept.2, fun hcur => ?_⟩
  have hrunning := (hkept.1.running i).mpr hcur.symm
  rw [hkept.2] at hrunning
  cases hrunning

/-- While a task sleeps its deadline stays, and it is not woken before. -/
theorem ArmInv.asleep {tick : Nat} (h : ArmInv s) (hsleep : (s.tasks i).state = .sleeping)
    (htick : (s.tasks i).wakeupTick = tick)
    (hrun : Reach ArmScheduler.step (fun s op => s.Offered op ∧ (s.tasks i).state = .sleeping)
      s s') : (s'.tasks i).state = .sleeping ∨ tick ≤ s'.tickCount := by
  have hkept : ArmInv s' ∧ ((s'.tasks i).state = .sleeping ∧ (s'.tasks i).wakeupTick = tick ∨
      tick ≤ s'.tickCount ∧ (s'.tasks i).state ≠ .sleeping) := by
    refine hrun.invariant (P := fun s => ArmInv s ∧ ((s.tasks i).state = .sleeping ∧
      (s.tasks i).wakeupTick = tick ∨ tick ≤ s.tickCount ∧ (s.tasks i).state ≠ .sleeping))
      ⟨h, Or.inl ⟨hsleep, htick⟩⟩ ?_
    rintro s₁ op s₂ ⟨hinv, hstate⟩ ⟨hop, hasleep⟩ hstep
    obtain ⟨hinv', hkept⟩ := hinv.of_step hop hstep
    obtain ⟨-, htick₁⟩ := hstate.resolve_right fun hawake => hawake.2 hasleep
    refine ⟨hinv', ?_⟩
    rcases (hkept i).asleep hasleep with ⟨hstill, hsame⟩ | ⟨hawake, hdue⟩
    · exact Or.inl ⟨hstill, hsame.trans htick₁⟩
    · refine Or.inr ⟨htick₁ ▸ hdue, fun hstill => ?_⟩
      rcases hawake with hawake | hawake <;> rw [hawake] at hstill <;> cases hstill
  exact hkept.2.imp And.left And.left

/-- From the start of `arm_kernel_main` with any user tasks, in every run: exactly the
current task runs; task 0 can run or does; a freed task stays freed and is not chosen again; a
task that `arm_task_set_sleep` puts to sleep for `ms` stays asleep until the 64-bit tick has
reached that of the call plus `ms`; and no entry halts. -/
theorem arm_scheduler_runs (tasks : ArmTasks)
    (h : Reach ArmScheduler.step Offered tasks.start s) :
    (∀ i, (s.tasks i).state = .running ↔ i = s.currentTask) ∧
    ((s.tasks 0).state = .ready ∨ (s.tasks 0).state = .running) ∧
    (∀ i s', (s.tasks i).state = .free → Reach ArmScheduler.step Offered s s' →
      (s'.tasks i).state = .free ∧ s'.currentTask ≠ i) ∧
    (∀ ms sp s₁ s', s.Offered (.armTaskSetSleep ms sp) → 1 ≤ ms → ms ≤ 0x7FFFFFFF →
      s.step (.armTaskSetSleep ms sp) = some s₁ →
      Reach ArmScheduler.step
        (fun s' op => s'.Offered op ∧ (s'.tasks s.currentTask).state = .sleeping) s₁ s' →
      (s₁.tasks s.currentTask).state = .sleeping ∧
        ((s'.tasks s.currentTask).state = .sleeping ∨
          wrap64 (s.tickCount + ms) ≤ s'.tickCount)) ∧
    ∀ op, s.Offered op → ∃ s', s.step op = some s' := by
  have hinv := (ArmInv.start tasks).of_run h
  refine ⟨hinv.running, hinv.idle, fun i s' hfree hrun => hinv.freed hfree hrun, ?_, ?_⟩
  · intro ms sp s₁ s' hop hpos hms hstep hrun
    have hinv₁ := (hinv.of_step hop hstep).1
    obtain ⟨hparked, hself, -⟩ := hinv.sleepUntil hop (wrap64 (s.tickCount + ms))
    obtain ⟨s₂, hschedule, -, -, -, -, hkept⟩ := hparked.schedule sp
    simp only [ArmScheduler.step, ArmScheduler.armTaskSetSleep] at hstep
    rw [if_neg (by omega), if_neg (by omega), hschedule, Option.some.injEq] at hstep
    subst hstep
    have hsleep : (s₂.tasks s.currentTask).state = .sleeping := by
      rw [(hkept s.currentTask).parked (by simp [ArmTask.Awake, hself.1]), hself.1]
    exact ⟨hsleep, hinv₁.asleep hsleep ((hkept s.currentTask).wakeupTick.trans hself.2) hrun⟩
  · intro op hop
    obtain ⟨s', hstep, -⟩ := hinv.step hop
    exact ⟨s', hstep⟩

/-- Idle with one user task. -/
def oneUserTask : ArmTasks := ⟨0x4000, [⟨0x100000, 0xC0020000, by decide⟩], by decide⟩

theorem reach_ticks (sp : ArmStackPointer) (n : Nat) {s s' : ArmScheduler}
    (h : (List.replicate n (ArmTaskOp.halTimerTick sp)).foldlM ArmScheduler.step s = some s') :
    Reach ArmScheduler.step Offered s s' := by
  induction n generalizing s with
  | zero =>
    cases h
    exact .start
  | succ n ih =>
    rw [List.replicate_succ, List.foldlM_cons, Option.bind_eq_bind,
      Option.bind_eq_some_iff] at h
    obtain ⟨s₁, hstep, hrest⟩ := h
    exact Reach.trans (.next .start (i := ArmTaskOp.halTimerTick sp) trivial hstep) (ih hrest)

/-- The first quantum ends, and the user task runs. -/
def firstSwitch : ArmScheduler :=
  ((List.replicate 10 (ArmTaskOp.halTimerTick ⟨0xC0010000, by decide⟩)).foldlM
    ArmScheduler.step oneUserTask.start).get (by decide +kernel)

theorem arm_scheduler_runs_first :
    firstSwitch.currentTask = 1 ∧ ∀ i, (firstSwitch.tasks i).state = .running ↔ i = 1 := by
  have hcur : firstSwitch.currentTask = 1 := by decide +kernel
  have hrun : Reach ArmScheduler.step Offered oneUserTask.start firstSwitch :=
    reach_ticks _ 10 (Option.some_get _).symm
  have hall := (arm_scheduler_runs oneUserTask hrun).1
  rw [hcur] at hall
  exact ⟨hcur, hall⟩

end ArmScheduler
end EnclaveOS
