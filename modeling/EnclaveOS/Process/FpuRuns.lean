import EnclaveOS.Process.Fpu

/-!
# FpuRuns - lazy against eager switching over whole runs
-/

namespace EnclaveOS

open FpuSystem

variable {F : Type*} {clean zero : F}

/-- Events that do not meet the save area while the registers are newer: the handler must
not reload the registers of their owner, `fork` must not copy a stale save area, and
`exec` must leave a trap for the first instruction of the new image. -/
def FpuSystem.Fresh (s : FpuSystem F) : FpuOp F → Prop
  | .instruction _ =>
    s.ts = true → s.fpuOwner = some s.currentTask → s.regs = (s.tasks s.currentTask).fpuState
  | .taskFork _ => s.fpuOwner = some s.currentTask → s.regs = (s.tasks s.currentTask).fpuState
  | .sysExec => s.ts = true
  | _ => True

/-- The contents of a task that does not own the registers. -/
def FpuTask.saved (clean : F) (t : FpuTask F) : F :=
  if t.fpuInitialized then t.fpuState else clean

/-- Where the contents of each task are. -/
structure FpuInv (clean : F) (s : FpuSystem F) (contents : Nat → F) : Prop where
  owner : ∀ task, s.fpuOwner = some task → (s.tasks task).status = .user ∧
    (s.tasks task).fpuInitialized = true ∧ contents task = s.regs
  others : ∀ task, (s.tasks task).status = .user → s.fpuOwner ≠ some task →
    contents task = (s.tasks task).saved clean
  trap : s.ts = false → (s.tasks s.currentTask).status = .user →
    s.fpuOwner = some s.currentTask

section Handler

variable {s : FpuSystem F} {contents : Nat → F}

theorem saveOwner_status (s : FpuSystem F) (task : Nat) :
    (s.saveOwner.tasks task).status = (s.tasks task).status := by
  unfold saveOwner
  split
  · split_ifs
    · rw [setTask_tasks]
      split_ifs with htask
      · rw [htask]
      · rfl
    · rfl
  · rfl

@[simp]
theorem saveOwner_currentTask (s : FpuSystem F) : s.saveOwner.currentTask = s.currentTask := by
  unfold saveOwner
  split
  · split_ifs <;> rfl
  · rfl

/-- Once the owner is saved, every task but an owner that runs has its contents in its
save area. -/
theorem FpuInv.saved (h : FpuInv clean s contents) {task : Nat}
    (huser : (s.tasks task).status = .user)
    (hother : s.fpuOwner = some s.currentTask → task ≠ s.currentTask) :
    contents task = (s.saveOwner.tasks task).saved clean := by
  unfold saveOwner
  split
  · rename_i owner howner
    obtain ⟨-, hinit, hregs⟩ := h.owner owner howner
    by_cases hcur : owner = s.currentTask
    · rw [if_neg (not_not.mpr hcur)]
      apply h.others task huser
      rw [howner, hcur]
      intro htask
      exact hother (hcur ▸ howner) (Option.some.inj htask).symm
    · rw [if_pos hcur, setTask_tasks]
      split_ifs with htask
      · rw [htask, hregs]
        unfold FpuTask.saved
        exact (if_pos hinit).symm
      · apply h.others task huser
        rw [howner]
        exact fun heq => htask (Option.some.inj heq).symm
  · rename_i hnone
    exact h.others task huser (by simp [hnone])

/-- The handler saves the registers of another owner and loads the save area of the
running task, or a clean register file. -/
theorem deviceNotAvailable_spec (clean : F) (s : FpuSystem F) :
    let s' := s.deviceNotAvailable clean
    s'.regs = (s.saveOwner.tasks s.currentTask).saved clean ∧
      s'.fpuOwner = some s.currentTask ∧ s'.ts = false ∧ s'.currentTask = s.currentTask ∧
      (s'.tasks s.currentTask).fpuInitialized = true ∧
      ∀ task, (s'.tasks task).status = (s.tasks task).status ∧
        (task ≠ s.currentTask → s'.tasks task = s.saveOwner.tasks task) := by
  have hts : ({ s with ts := false } : FpuSystem F).saveOwner = { s.saveOwner with ts := false } := by
    obtain ⟨tasks, current, owner, ts, regs⟩ := s
    cases owner with
    | none => rfl
    | some owner =>
      unfold saveOwner
      dsimp only
      split_ifs <;> rfl
  unfold deviceNotAvailable
  rw [hts]
  dsimp only
  rw [saveOwner_currentTask]
  by_cases hinit : (s.saveOwner.tasks s.currentTask).fpuInitialized = true
  · simp [hinit, FpuTask.saved, saveOwner_status]
  · refine ⟨?_, ?_, ?_, ?_, ?_, fun task => ⟨?_, fun htask => ?_⟩⟩
    · simp [hinit, FpuTask.saved]
    · simp [hinit]
    · simp [hinit]
    · simp [hinit]
    · simp [hinit, setTask_tasks]
    · rw [if_neg hinit, setTask_tasks]
      dsimp only
      split_ifs with htask
      · rw [htask]
        exact saveOwner_status s s.currentTask
      · exact saveOwner_status s task
    · rw [if_neg hinit, setTask_tasks]
      exact if_neg htask

end Handler

namespace FpuInv

variable {s : FpuSystem F} {contents : Nat → F}

/-- An instruction that does not reload a stale save area sees the contents of its task,
and then owns the registers. -/
theorem access (h : FpuInv clean s contents) (huser : (s.tasks s.currentTask).status = .user)
    {out : F} (hfresh : s.Fresh (.instruction out)) :
    FpuInv clean (s.access clean) contents ∧
      (s.access clean).regs = contents s.currentTask ∧
      (s.access clean).fpuOwner = some s.currentTask ∧
      (s.access clean).currentTask = s.currentTask := by
  unfold FpuSystem.access
  cases hts : s.ts with
  | false =>
    have howner := h.trap hts huser
    rw [if_neg Bool.false_ne_true]
    exact ⟨h, ((h.owner _ howner).2.2).symm, howner, rfl⟩
  | true =>
    rw [if_pos rfl]
    obtain ⟨hregs, howner, hts', hcur, hinit, htasks⟩ := deviceNotAvailable_spec clean s
    have hsees : (s.deviceNotAvailable clean).regs = contents s.currentTask := by
      rw [hregs]
      by_cases hown : s.fpuOwner = some s.currentTask
      · obtain ⟨-, hinit, hcontents⟩ := h.owner _ hown
        have hsave : s.saveOwner = s := by
          unfold saveOwner
          simp [hown]
        rw [hsave, hcontents, hfresh hts hown]
        exact if_pos hinit
      · exact (h.saved huser fun heq => absurd heq hown).symm
    refine ⟨⟨?_, ?_, ?_⟩, hsees, howner, hcur⟩
    · intro task htask
      rw [howner] at htask
      cases htask
      exact ⟨(htasks _).1.trans huser, hinit, hsees.symm⟩
    · intro task huser' htask
      rw [howner] at htask
      have hne : task ≠ s.currentTask := fun heq => htask (heq ▸ rfl)
      rw [(htasks task).2 hne]
      exact h.saved ((htasks task).1.symm.trans huser') fun _ => hne
    · intro _ _
      rw [howner, hcur]

/-- The instruction of an owner that is switched away and back sees its save area. -/
theorem stale (h : FpuInv clean s contents) (hts : s.ts = true)
    (howner : s.fpuOwner = some s.currentTask) :
    (s.access clean).regs = (s.tasks s.currentTask).fpuState ∧
      contents s.currentTask = s.regs := by
  obtain ⟨-, hinit, hcontents⟩ := h.owner _ howner
  have hsave : s.saveOwner = s := by
    unfold saveOwner
    simp [howner]
  refine ⟨?_, hcontents⟩
  unfold FpuSystem.access
  rw [if_pos hts, (deviceNotAvailable_spec clean s).1, hsave]
  exact if_pos hinit

theorem boot (main : Nat) (ts : Bool) (regs : F) :
    FpuInv clean (.boot zero main ts regs) fun _ => clean where
  owner task htask := by cases htask
  others task htask _ := rfl
  trap _ huser := by
    unfold FpuSystem.boot at huser
    simp at huser

/-- Rewriting the control block of a task that gives up the registers. -/
theorem release (h : FpuInv clean s contents) {i : Nat} {t : FpuTask F} {v : F}
    (hv : t.status = .user → v = t.saved clean)
    (htrap : i = s.currentTask → t.status = .user → s.ts = true) :
    FpuInv clean ((s.fpuReleaseOwnership i).setTask i t) (Function.update contents i v) := by
  have howner : ∀ task, (s.fpuReleaseOwnership i).fpuOwner = some task ↔
      s.fpuOwner = some task ∧ task ≠ i := by
    intro task
    unfold fpuReleaseOwnership
    split_ifs with hi
    · simp only [hi, Option.some.injEq, false_iff, not_and, not_not]
      exact fun heq => heq.symm
    · constructor
      · intro htask
        exact ⟨htask, fun heq => hi (heq ▸ htask)⟩
      · exact fun htask => htask.1
  have hkeep : (s.fpuReleaseOwnership i).tasks = s.tasks ∧
      (s.fpuReleaseOwnership i).currentTask = s.currentTask ∧
      (s.fpuReleaseOwnership i).ts = s.ts ∧ (s.fpuReleaseOwnership i).regs = s.regs := by
    unfold fpuReleaseOwnership
    split_ifs <;> exact ⟨rfl, rfl, rfl, rfl⟩
  obtain ⟨htasks, hcur, hts, hregs⟩ := hkeep
  refine ⟨fun task htask => ?_, fun task huser htask => ?_, fun hts' huser => ?_⟩
  · obtain ⟨hown, hne⟩ := (howner task).mp htask
    rw [setTask_tasks, if_neg hne, htasks, Function.update_of_ne hne, setTask_regs, hregs]
    exact h.owner task hown
  · rw [setTask_tasks] at huser ⊢
    by_cases hi : task = i
    · rw [if_pos hi] at huser ⊢
      rw [hi, Function.update_self]
      exact hv huser
    · rw [if_neg hi, htasks] at huser ⊢
      rw [Function.update_of_ne hi]
      exact h.others task huser fun hown => htask ((howner task).mpr ⟨hown, hi⟩)
  · rw [setTask_tasks, setTask_currentTask, hcur] at huser
    rw [setTask_ts, hts] at hts'
    rw [setTask_fpuOwner, setTask_currentTask, hcur]
    by_cases hi : s.currentTask = i
    · rw [if_pos hi] at huser
      rw [htrap hi.symm huser] at hts'
      cases hts'
    · rw [if_neg hi, htasks] at huser
      exact (howner _).mpr ⟨h.trap hts' huser, hi⟩

/-- Rewriting a control block that is not in use. -/
theorem rewrite (h : FpuInv clean s contents) {i : Nat} {t : FpuTask F} {v : F}
    (hidle : (s.tasks i).status ≠ .user) (hne : t.status = .user → i ≠ s.currentTask)
    (hv : t.status = .user → v = t.saved clean) :
    FpuInv clean (s.setTask i t) (Function.update contents i v) := by
  have howner : s.fpuOwner ≠ some i := fun hown => hidle (h.owner i hown).1
  have hsame : s.fpuReleaseOwnership i = s := by
    unfold fpuReleaseOwnership
    exact if_neg howner
  have hnew := h.release hv fun hi huser => absurd hi (hne huser)
  rw [hsame] at hnew
  exact hnew

/-- Every event that does not meet a stale save area keeps the contents in place. -/
theorem step (h : FpuInv clean s contents) {op : FpuOp F} (hop : s.Offered op)
    (hfresh : s.Fresh op) :
    FpuInv clean (s.step clean zero op) (eagerStep clean s.currentTask contents op) := by
  cases op with
  | instruction out =>
    obtain ⟨hinv, -, howner, hcur⟩ := h.access hop hfresh
    refine ⟨fun task htask => ?_, fun task huser htask => ?_, fun _ _ => howner.trans (hcur ▸ rfl)⟩
    · have htask' : some s.currentTask = some task := howner.symm.trans htask
      cases htask'
      obtain ⟨huser, hinit, -⟩ := hinv.owner _ howner
      exact ⟨huser, hinit, Function.update_self ..⟩
    · have hne : task ≠ s.currentTask := by
        rintro rfl
        exact htask howner
      exact (Function.update_of_ne hne _ _).trans (hinv.others task huser htask)
  | switchContext task => exact ⟨h.owner, h.others, fun hts => by cases hts⟩
  | taskCreate task =>
    exact h.rewrite (by rw [hop.1]; decide) (fun _ => hop.2) fun _ => rfl
  | taskFork child =>
    obtain ⟨huser, hfree⟩ := hop
    have hne : child ≠ s.currentTask := by
      rintro rfl
      rw [huser] at hfree
      cases hfree
    refine h.rewrite (by rw [hfree]; decide) (fun _ => hne) fun _ => ?_
    -- The child inherits a save area that holds the contents of its parent.
    by_cases hown : s.fpuOwner = some s.currentTask
    · obtain ⟨-, hinit, hcontents⟩ := h.owner _ hown
      rw [hcontents, hfresh hown]
      exact (if_pos hinit).symm
    · exact h.others _ huser hown
  | sysExec => exact h.release (fun _ => rfl) fun _ _ => hfresh
  | taskExit =>
    have hnew := h.release (i := s.currentTask) (v := contents s.currentTask)
      (t := { s.tasks s.currentTask with status := .exited }) nofun nofun
    rw [Function.update_eq_self] at hnew
    exact hnew
  | killChild child =>
    have hnew := h.release (i := child) (v := contents child)
      (t := { s.tasks child with status := .exited }) nofun nofun
    rw [Function.update_eq_self] at hnew
    exact hnew
  | reap task =>
    have hidle : (s.tasks task).status ≠ .user := by
      rw [show (s.tasks task).status = .exited from hop]
      decide
    have hnew := h.rewrite (i := task) (v := contents task)
      (t := { s.tasks task with status := .free }) hidle nofun nofun
    rw [Function.update_eq_self] at hnew
    exact hnew

end FpuInv

/-- In every run that meets no stale save area, an instruction sees the contents that
eager switching would show exactly when it does not reload one. -/
theorem lazy_fpu (main : Nat) (ts : Bool) (regs : F) {r : FpuRun F}
    (h : Reach (fun r op => some (FpuRun.step clean zero r op))
      (fun r op => r.sys.Offered op ∧ r.sys.Fresh op) (FpuRun.boot clean zero main ts regs) r)
    {out : F} (hop : r.sys.Offered (.instruction out)) :
    (r.sys.access clean).regs = r.contents r.sys.currentTask ↔
      r.sys.Fresh (.instruction out) := by
  have hinv : FpuInv clean r.sys r.contents := by
    apply Reach.invariant (P := fun r => FpuInv clean r.sys r.contents) (FpuInv.boot main ts regs)
      _ h
    intro r op r' hr hstep heq
    cases heq
    exact hr.step hstep.1 hstep.2
  constructor
  · intro hsees hts howner
    obtain ⟨hstale, hcontents⟩ := hinv.stale hts howner
    rw [← hcontents, ← hsees, hstale]
  · exact fun hfresh => (hinv.access hop hfresh).2.1

/-- The runs of one task beside the kernel's, over registers that hold a number. -/
abbrev FpuReach (offered : FpuSystem Nat → FpuOp Nat → Prop) : FpuRun Nat → Prop :=
  Reach (fun r op => some (FpuRun.step 0 0 r op)) (fun r op => offered r.sys op)
    (FpuRun.boot 0 0 0 false 0)

/-- Task 1 is created and runs. -/
def firstTask : FpuRun Nat :=
  ((FpuRun.boot 0 0 0 false 0).step 0 0 (.taskCreate 1)).step 0 0 (.switchContext 1)

theorem firstTask_reach {offered : FpuSystem Nat → FpuOp Nat → Prop}
    (hcreate : offered (FpuRun.boot 0 0 0 false 0).sys (.taskCreate 1))
    (hswitch : offered ((FpuRun.boot 0 0 0 false 0).step 0 0 (.taskCreate 1)).sys
      (.switchContext 1)) : FpuReach offered firstTask :=
  .next (i := .switchContext 1) (.next (i := .taskCreate 1) .start hcreate rfl) hswitch rfl

/-- The first instruction of a task sees a clean register file. -/
theorem lazy_fpu_sample : (firstTask.sys.access 0).regs = 0 := by
  have hrun : FpuReach (fun s op => s.Offered op ∧ s.Fresh op) firstTask :=
    firstTask_reach ⟨⟨rfl, by decide⟩, trivial⟩ ⟨Or.inl rfl, trivial⟩
  have hop : firstTask.sys.Offered (.instruction 5) := rfl
  exact (lazy_fpu 0 false 0 hrun hop).mpr nofun

/-- A task leaves 5 in the registers, the kernel's task runs in between, and the next
instruction of the task sees the contents from before. -/
theorem lazy_fpu_stale : ∃ r, FpuReach Offered r ∧ r.sys.Offered (.instruction 7) ∧
    (r.sys.access 0).regs ≠ r.contents r.sys.currentTask := by
  have hrun : FpuReach Offered firstTask := firstTask_reach ⟨rfl, by decide⟩ (Or.inl rfl)
  have hused := Reach.next (i := FpuOp.instruction 5) hrun rfl rfl
  have haway := Reach.next (i := FpuOp.switchContext 0) hused (Or.inr rfl) rfl
  have hback := Reach.next (i := FpuOp.switchContext 1) haway (Or.inl rfl) rfl
  exact ⟨_, hback, rfl, by decide⟩

end EnclaveOS
