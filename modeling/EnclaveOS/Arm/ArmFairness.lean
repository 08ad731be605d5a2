import EnclaveOS.Arm.ArmSchedulerRuns

/-!
# ArmFairness - no ready task of the ARM kernel starves

The search of `schedule` starts behind the current task, so each call that passes over a ready
task brings the search closer to it, and the timer calls `schedule` in every tenth tick.
-/

namespace EnclaveOS

/-- The weight of a step: one for a timer tick. -/
def ArmTaskOp.ticks : ArmTaskOp → Nat
  | .halTimerTick _ => 1
  | _ => 0

namespace ArmScheduler

variable {s s' : ArmScheduler} {i : Nat}

/-- How many candidates the search tries before `i`. -/
def distance (s : ArmScheduler) (i : Nat) : Nat :=
  if s.currentTask < i then i - (s.currentTask + 1)
  else i + s.numTasks - (s.currentTask + 1)

/-- Timer ticks that a ready task can still wait. -/
def patience (s : ArmScheduler) (i : Nat) : Nat :=
  quantumTicks * s.distance i + (quantumTicks - s.quantumCounter)

theorem distance_lt (hcur : s.currentTask < s.numTasks) (hi : i < s.numTasks)
    (hne : i ≠ s.currentTask) : s.distance i + 1 < s.numTasks := by
  unfold distance
  split_ifs <;> omega

/-- The candidate after `k` others. -/
theorem candidate_eq (hcur : s.currentTask < s.numTasks) {k : Nat} (hk : k < s.numTasks) :
    (s.currentTask + 1 + k) % s.numTasks = if s.currentTask + 1 + k < s.numTasks then
      s.currentTask + 1 + k else s.currentTask + 1 + k - s.numTasks := by
  split_ifs with hlt
  · exact Nat.mod_eq_of_lt hlt
  · rw [Nat.mod_eq_sub_mod (Nat.le_of_not_lt hlt), Nat.mod_eq_of_lt (by omega)]

/-- The candidate at the distance of `i` is `i`. -/
theorem candidate_distance (hcur : s.currentTask < s.numTasks) (hi : i < s.numTasks)
    (hne : i ≠ s.currentTask) : (s.currentTask + 1 + s.distance i) % s.numTasks = i := by
  have hlt := distance_lt hcur hi hne
  rw [candidate_eq hcur (by omega)]
  unfold distance at hlt ⊢
  split_ifs <;> omega

/-- A candidate before `i` is nearer to `i`. -/
theorem distance_candidate (hcur : s.currentTask < s.numTasks) (hi : i < s.numTasks)
    (hne : i ≠ s.currentTask) {k : Nat} (hk : k < s.distance i) (hs' : s'.numTasks = s.numTasks)
    (hnext : s'.currentTask = (s.currentTask + 1 + k) % s.numTasks) :
    s'.distance i < s.distance i := by
  have hlt := distance_lt hcur hi hne
  rw [candidate_eq hcur (by omega)] at hnext
  unfold distance at hk hlt ⊢
  split_ifs at hnext hk ⊢ <;> omega

/-- `schedule` goes to a task, and changes no other but the one that runs. -/
theorem switchTo_current {next : Nat} {sp : ArmStackPointer} (h : s.switchTo next sp = some s') :
    s'.currentTask = next ∧ s'.numTasks = s.numTasks ∧ s'.quantumCounter = s.quantumCounter ∧
      ∀ j, j ≠ next → (s'.tasks j).state = (s.tasks j).state := by
  unfold switchTo at h
  split_ifs at h with hsame
  · cases h
    exact ⟨hsame.symm, rfl, rfl, fun j hj => by rw [setState_of_ne hj]⟩
  · cases h
    refine ⟨rfl, rfl, rfl, fun j hj => ?_⟩
    by_cases hprev : j = s.currentTask
    · rw [hprev, armContextSwitch_self, setState_of_ne (Ne.symm hsame)]
    · rw [armContextSwitch_of_ne hprev, setState_of_ne hj]

/-- The current task is put back among the ready ones before the search. -/
theorem schedule_first (s : ArmScheduler) : ∃ s₁,
    (if (s.tasks s.currentTask).state = .running then s.setState s.currentTask .ready else s) =
        s₁ ∧ s₁.currentTask = s.currentTask ∧ s₁.numTasks = s.numTasks ∧
      s₁.quantumCounter = s.quantumCounter ∧ ∀ i, i ≠ s.currentTask → s₁.tasks i = s.tasks i := by
  split_ifs
  · exact ⟨_, rfl, rfl, rfl, rfl, fun i hne => setState_of_ne hne ..⟩
  · exact ⟨s, rfl, rfl, rfl, rfl, fun _ _ => rfl⟩

theorem schedule_quantum {sp : ArmStackPointer} (h : s.schedule sp = some s') :
    s'.quantumCounter = s.quantumCounter := by
  obtain ⟨s₁, hs₁, -, -, hfirst, -⟩ := s.schedule_first
  unfold schedule at h
  simp only [hs₁] at h
  cases hnext : s₁.nextReady with
  | some next =>
    rw [hnext] at h
    exact (switchTo_current h).2.2.1.trans hfirst
  | none =>
    simp only [hnext] at h
    split_ifs at h
    · exact (switchTo_current h).2.2.1.trans hfirst
    · cases h
      exact hfirst
    · cases h
      exact hfirst

/-- What a step has done where it calls `schedule`, or where it ends without a call. -/
structure Prepared (s s₁ : ArmScheduler) : Prop where
  current : s₁.currentTask = s.currentTask
  count : s₁.numTasks = s.numTasks
  ready : ∀ j, j ≠ s.currentTask → (s.tasks j).state = .ready → (s₁.tasks j).state = .ready

theorem prepared_freeCurrent (s : ArmScheduler) :
    Prepared s s.freeCurrent ∧ s.freeCurrent.quantumCounter = s.quantumCounter := by
  have hfreed : ∀ j, j ≠ s.currentTask → (s.tasks j).state = .ready →
      ((s.setState s.currentTask .free).tasks j).state = .ready := by
    intro j hj hready
    rw [setState_of_ne hj, hready]
  unfold freeCurrent
  dsimp only
  split_ifs
  · refine ⟨⟨rfl, rfl, fun j hj hready => ?_⟩, rfl⟩
    by_cases hzero : j = 0
    · rw [hzero, setState_self]
    · rw [setState_of_ne hzero, hfreed j hj hready]
  · exact ⟨⟨rfl, rfl, hfreed⟩, rfl⟩

/-- A step calls `schedule` at most once, at its end, and a tick does so when the quantum is
over. -/
theorem step_cases {op : ArmTaskOp} (h : s.step op = some s') : ∃ s₁, Prepared s s₁ ∧
    (op.ticks = 0 ∧ s₁.quantumCounter = s.quantumCounter ∧
        (s' = s₁ ∨ ∃ sp, s₁.schedule sp = some s') ∨
      op.ticks = 1 ∧ s₁.quantumCounter = wrap32 (s.quantumCounter + 1) ∧
        s₁.quantumCounter < quantumTicks ∧ s' = s₁ ∨
      op.ticks = 1 ∧ quantumTicks ≤ wrap32 (s.quantumCounter + 1) ∧ s₁.quantumCounter = 0 ∧
        ∃ sp, s₁.schedule sp = some s') := by
  have hrefl : Prepared s s := ⟨rfl, rfl, fun _ _ hready => hready⟩
  obtain ⟨hfreed, hquantum⟩ := s.prepared_freeCurrent
  cases op with
  | halTimerTick sp =>
    have hwoken : ∀ tick j, (s.tasks j).state = .ready →
        ((armTaskCheckWakeup { s with tickCount := tick } tick).tasks j).state = .ready := by
      intro tick j hready
      simp [armTaskCheckWakeup, hready]
    simp only [step, halTimerTick] at h
    split_ifs at h with hend
    · refine ⟨_, ?_, Or.inr (Or.inr ⟨rfl, hend, rfl, sp, h⟩)⟩
      exact ⟨rfl, rfl, fun j _ => hwoken _ j⟩
    · cases h
      refine ⟨_, ?_, Or.inr (Or.inl ⟨rfl, rfl, Nat.not_le.mp hend, rfl⟩)⟩
      exact ⟨rfl, rfl, fun j _ => hwoken _ j⟩
  | armTaskYield sp => exact ⟨s, hrefl, Or.inl ⟨rfl, rfl, Or.inr ⟨sp, h⟩⟩⟩
  | armTaskExit sp =>
    simp only [step, armTaskExit] at h
    split_ifs at h
    · cases h
      exact ⟨s, hrefl, Or.inl ⟨rfl, rfl, Or.inl rfl⟩⟩
    · exact ⟨_, hfreed, Or.inl ⟨rfl, hquantum, Or.inr ⟨sp, h⟩⟩⟩
  | armTaskSetSleep ms sp =>
    simp only [step, armTaskSetSleep] at h
    split_ifs at h
    · cases h
      exact ⟨s, hrefl, Or.inl ⟨rfl, rfl, Or.inl rfl⟩⟩
    · cases h
      exact ⟨s, hrefl, Or.inl ⟨rfl, rfl, Or.inl rfl⟩⟩
    · refine ⟨s.sleepUntil (wrap64 (s.tickCount + ms)), ?_, Or.inl ⟨rfl, rfl, Or.inr ⟨sp, h⟩⟩⟩
      refine ⟨rfl, rfl, fun j hj hready => ?_⟩
      simpa [sleepUntil, hj] using hready
  | armTaskCheckWakeup =>
    cases h
    refine ⟨s.armTaskCheckWakeup s.tickCount, ?_, Or.inl ⟨rfl, rfl, Or.inl rfl⟩⟩
    refine ⟨rfl, rfl, fun j _ hready => ?_⟩
    simp [armTaskCheckWakeup, hready]
  | armTaskFaultKill sp =>
    simp only [step, armTaskFaultKill] at h
    split_ifs at h
    obtain ⟨s₁, hschedule, hsame⟩ := Option.bind_eq_some_iff.mp h
    split_ifs at hsame
    cases hsame
    exact ⟨_, hfreed, Or.inl ⟨rfl, hquantum, Or.inr ⟨sp, hschedule⟩⟩⟩

/-- The tick that ends a quantum starts the next one. -/
theorem quantum_step {op : ArmTaskOp} (h : s.quantumCounter < quantumTicks)
    (hs : s.step op = some s') : s'.quantumCounter < quantumTicks := by
  obtain ⟨s₁, -, ⟨-, hsame, rfl | ⟨sp, hschedule⟩⟩ | ⟨-, -, hlt, rfl⟩ |
    ⟨-, -, hzero, sp, hschedule⟩⟩ := step_cases hs
  · exact hsame ▸ h
  · exact ((schedule_quantum hschedule).trans hsame) ▸ h
  · exact hlt
  · rw [schedule_quantum hschedule, hzero]
    decide

theorem createUsers_quantum (users : List ArmUserTask) (s : ArmScheduler) (id : Nat) :
    (s.createUsers id users).quantumCounter = s.quantumCounter := by
  induction users generalizing s id with
  | nil => rfl
  | cons user users ih => exact ih _ _

/-- A call that does not choose a ready task comes nearer to it. -/
theorem schedule_closer {sp : ArmStackPointer} (hcur : s.currentTask < s.numTasks)
    (hi : i < s.numTasks) (hne : i ≠ s.currentTask) (hready : (s.tasks i).state = .ready)
    (h : s.schedule sp = some s') (hmissed : s'.currentTask ≠ i) :
    (s'.tasks i).state = .ready ∧ s'.numTasks = s.numTasks ∧
      s'.quantumCounter = s.quantumCounter ∧ s'.distance i < s.distance i := by
  obtain ⟨s₁, hs₁, hcur₁, hnum₁, hquantum₁, htasks⟩ := s.schedule_first
  have htask₁ := htasks i hne
  unfold schedule at h
  simp only [hs₁] at h
  have hdist : s₁.distance i = s.distance i := by
    unfold distance
    rw [hcur₁, hnum₁]
  have hready₁ : (s₁.tasks ((s₁.currentTask + 1 + s.distance i) % s₁.numTasks)).state = .ready := by
    rw [hcur₁, hnum₁, candidate_distance hcur hi hne, htask₁, hready]
  have hsearch : s₁.nextReady = ((List.range s₁.numTasks).find? fun k =>
      (s₁.tasks ((s₁.currentTask + 1 + k) % s₁.numTasks)).state = .ready).map fun k =>
        (s₁.currentTask + 1 + k) % s₁.numTasks := by
    unfold nextReady candidates
    rw [List.find?_map]
    rfl
  cases hfound : (List.range s₁.numTasks).find? fun k =>
      (s₁.tasks ((s₁.currentTask + 1 + k) % s₁.numTasks)).state = .ready with
  | none =>
    rw [List.find?_eq_none] at hfound
    have hlt := distance_lt hcur hi hne
    exact absurd hready₁ (by simpa using hfound (s.distance i) (List.mem_range.mpr (by omega)))
  | some k =>
    rw [hsearch, hfound] at h
    obtain ⟨hnext, hnum, hquantum, hstate⟩ := switchTo_current h
    rw [List.find?_range_eq_some] at hfound
    have hle : k ≤ s.distance i := by
      by_contra hlt
      simpa [hready₁] using hfound.2.2 (s.distance i) (by omega)
    have hk : k ≠ s.distance i := by
      rintro rfl
      apply hmissed
      rw [hnext, hcur₁, hnum₁]
      exact candidate_distance hcur hi hne
    rw [← hdist] at hle hk ⊢
    have hnear := distance_candidate (by omega) (by omega) (by omega) (lt_of_le_of_ne hle hk) hnum hnext
    refine ⟨?_, hnum.trans hnum₁, hquantum.trans hquantum₁, by omega⟩
    rw [hstate i (by rw [← hnext]; exact hmissed.symm), htask₁, hready]

theorem ArmInv.ready_lt (h : ArmInv s) (hready : (s.tasks i).state = .ready) :
    i < s.numTasks ∧ i ≠ s.currentTask := by
  constructor
  · by_contra hge
    rw [h.beyond i (Nat.le_of_not_lt hge)] at hready
    cases hready
  · intro heq
    rw [(h.running i).mpr heq] at hready
    cases hready

/-- A step that passes over a ready task is paid for by its patience. -/
theorem ArmInv.patience_step {op : ArmTaskOp} (h : ArmInv s)
    (hquantum : s.quantumCounter < quantumTicks) (hready : (s.tasks i).state = .ready)
    (hs : s.step op = some s') (hmissed : s'.currentTask ≠ i) :
    (s'.tasks i).state = .ready ∧ s'.patience i + op.ticks ≤ s.patience i := by
  obtain ⟨s₁, hprep, hcases⟩ := step_cases hs
  obtain ⟨hi, hne⟩ := h.ready_lt hready
  have hlt := h.current
  have hready₁ := hprep.ready i hne hready
  have hdist : s₁.distance i = s.distance i := by
    unfold distance
    rw [hprep.current, hprep.count]
  have hcloser : ∀ sp, s₁.schedule sp = some s' → (s'.tasks i).state = .ready ∧
      s'.quantumCounter = s₁.quantumCounter ∧ s'.distance i < s₁.distance i := by
    intro sp hschedule
    have hlt₁ : s₁.currentTask < s₁.numTasks := by rwa [hprep.current, hprep.count]
    obtain ⟨hready', -, hsame, hnear⟩ := schedule_closer hlt₁ (hprep.count ▸ hi)
      (hprep.current ▸ hne) hready₁ hschedule hmissed
    exact ⟨hready', hsame, hnear⟩
  unfold patience
  unfold quantumTicks at *
  obtain ⟨hticks, hsame, rfl | ⟨sp, hschedule⟩⟩ | ⟨hticks, hnext, hend, rfl⟩ |
    ⟨hticks, hend, hzero, sp, hschedule⟩ := hcases
  · refine ⟨hready₁, ?_⟩
    omega
  · obtain ⟨hready', hsame', hnear⟩ := hcloser sp hschedule
    refine ⟨hready', ?_⟩
    omega
  · refine ⟨hready₁, ?_⟩
    unfold wrap32 at hnext
    omega
  · obtain ⟨hready', hsame', hnear⟩ := hcloser sp hschedule
    refine ⟨hready', ?_⟩
    omega

/-- From the start of the kernel, in every run: while a ready task is not chosen it stays
ready, and fewer than ten timer ticks for each other task go by. -/
theorem arm_ready_task_runs (tasks : ArmTasks) (h : Reach ArmScheduler.step Offered tasks.start s)
    (hready : (s.tasks i).state = .ready) {n : Nat}
    (hrun : Reach (Reach.weighed ArmScheduler.step ArmTaskOp.ticks)
      (fun x op => x.1.Offered op ∧ ∀ s₁, x.1.step op = some s₁ → s₁.currentTask ≠ i)
      (s, 0) (s', n)) :
    (s'.tasks i).state = .ready ∧ n < quantumTicks * (s.numTasks - 1) := by
  have hinv := (ArmInv.start tasks).of_run h
  have hquantum : s.quantumCounter < quantumTicks := by
    refine h.invariant (P := fun s => s.quantumCounter < quantumTicks) ?_
      fun _ _ _ hquantum _ hstep => quantum_step hquantum hstep
    rw [ArmTasks.start, createUsers_quantum]
    exact (by decide : 0 < quantumTicks)
  let P (s : ArmScheduler) := ArmInv s ∧ s.quantumCounter < quantumTicks ∧
    (s.tasks i).state = .ready
  obtain ⟨⟨-, hquantum', hready'⟩, hpaid⟩ : P s' ∧ s'.patience i + n ≤ s.patience i := by
    refine @Reach.within_budget _ _ ArmScheduler.step (fun s op => s.Offered op ∧
      ∀ s₁, s.step op = some s₁ → s₁.currentTask ≠ i) s P (patience · i) _ (s', n)
      ⟨hinv, hquantum, hready⟩ ?_ hrun
    rintro s op s' ⟨hs, hquantum, hready⟩ hop hstep
    obtain ⟨hready', hpaid⟩ := hs.patience_step hquantum hready hstep (hop.2 s' hstep)
    exact ⟨⟨(hs.of_step hop.1 hstep).1, quantum_step hquantum hstep, hready'⟩, hpaid⟩
  refine ⟨hready', ?_⟩
  obtain ⟨hlt, hne⟩ := hinv.ready_lt hready
  have hdist := distance_lt hinv.current hlt hne
  unfold patience quantumTicks at hpaid
  unfold quantumTicks at hquantum' ⊢
  omega

def kernelStack : ArmStackPointer := ⟨0xC0010000, Nat.succ_ne_zero 0xC000FFFF⟩

/-- The first timer tick, in the middle of the quantum of idle. -/
def firstTick : ArmScheduler :=
  (oneUserTask.start.step (.halTimerTick kernelStack)).get (by decide +kernel)

theorem arm_ready_task_runs_first :
    (firstTick.tasks 1).state = .ready ∧ 1 < quantumTicks * (oneUserTask.start.numTasks - 1) := by
  have hstep : oneUserTask.start.step (.halTimerTick kernelStack) = some firstTick :=
    (Option.some_get _).symm
  have hmissed : firstTick.currentTask ≠ 1 := by decide +kernel
  refine arm_ready_task_runs oneUserTask .start (by decide +kernel)
    (Reach.next .start (i := ArmTaskOp.halTimerTick kernelStack) ⟨trivial, ?_⟩ ?_)
  · intro s₁ h
    rw [hstep] at h
    exact Option.some.inj h ▸ hmissed
  · rw [Reach.weighed, hstep]
    rfl

end ArmScheduler
end EnclaveOS
