import EnclaveOS.Memory.KernelBoot
import EnclaveOS.Process.ElfSpec
import EnclaveOS.Process.System
import Mathlib.Combinatorics.Enumerative.DoubleCounting

/-!
# SystemInv - who owns the frames of the running system

The ownership of frames, tied to the processes: every live directory belongs to
one process, and every process has a PCB frame and a kernel stack of its own.
-/

namespace EnclaveOS

open PageWord

/-- A step on the user half is one on the kernel half that writes nothing there. -/
theorem KernelFrame.kernelStep {m m' : Machine} {own own' : Nat → Owner} {R : Nat → Nat → Prop}
    (hk : KernelFrame m own m' own') (hboot : own m.bootPageDirectory = .kernel .reserved)
    (hhalf : KernelHalf m own R) : KernelStep m own m' own' where
  boot := hk.boot
  bootMem := hk.mem _ _ hboot
  high := fun i hi hi' hpres => hk.mem _ _ (hhalf.table i (by omega) hi' hpres).1
  reserved := fun f hf => (hk.owner f _).mp hf
  pcb := fun f hf => (hk.owner f _).mp hf

theorem stacksInUse_congr {m m' : Machine} (h : m'.kstackBitmap = m.kstackBitmap) :
    stacksInUse m' = stacksInUse m := by
  unfold stacksInUse
  rw [h]

section Pcb

variable {m : Machine} {pds : Finset Nat} {own : Nat → Owner} {R : Nat → Nat → Prop} {f : Nat}

/-- A frame that holds neither a kernel table nor a stack page changes hands. -/
theorem KernelHalf.retag (hk : KernelHalf m own R) (o : Owner)
    (hreserved : own f ≠ .kernel .reserved) (hstack : ∀ slot p, own f ≠ .kernel (.stack slot p))
    (p : Pmm) : KernelHalf (m.withPmm p) (Function.update own f o) R := by
  refine ⟨?_, hk.inj, hk.direct, ?_⟩
  · intro i hi hi' hpres
    obtain ⟨hown, hne⟩ := hk.table i hi hi' hpres
    refine ⟨?_, hne⟩
    rw [Function.update_of_ne]
    · exact hown
    · rintro rfl
      exact hreserved hown
  · intro slot q hq
    obtain ⟨hslot, hq₁, hq₄, hpres, hown⟩ := hk.stack slot q hq
    refine ⟨hslot, hq₁, hq₄, hpres, ?_⟩
    rw [Function.update_of_ne]
    · exact hown
    · rintro rfl
      exact hstack slot q hown

/-- The page for a PCB comes from the pool. -/
theorem VmInv.allocPcb (h : VmInv m pds own) (hk : KernelHalf m own R) :
    m.allocPage = (m, 0#32) ∨
    ∃ f, own f = .free ∧ f < pmmMaxPages ∧ frameAddr f ≠ 0#32 ∧
      m.allocPage = (m.withPmm (m.pmm.take f), frameAddr f) ∧
      VmInv (m.withPmm (m.pmm.take f)) pds (Function.update own f (.kernel .pcb)) ∧
      KernelHalf (m.withPmm (m.pmm.take f)) (Function.update own f (.kernel .pcb)) R ∧
      KernelStep m own (m.withPmm (m.pmm.take f)) (Function.update own f (.kernel .pcb)) := by
  rcases h.allocPage with hnone | ⟨f, hfree, hmax, hne, halloc, hheld, -⟩
  · exact Or.inl hnone
  · refine Or.inr ⟨f, hfree, hmax, hne, halloc, ?_, ?_, ?_⟩
    · have hpcb := hheld.holdToKernel (Function.update_self _ _ _) .pcb
      rwa [Function.update_idem] at hpcb
    · exact hk.retag _ (by rw [hfree]; rintro ⟨⟩) (by rw [hfree]; rintro slot p ⟨⟩) _
    · exact .retag _ (by rw [hfree]; rintro ⟨⟩) (by rw [hfree]; rintro ⟨⟩)

/-- The page of a PCB goes back to the pool. -/
theorem VmInv.freePcb (h : VmInv m pds own) (hk : KernelHalf m own R)
    (hf : own f = .kernel .pcb) :
    VmInv (m.freePage (frameAddr f)) pds (Function.update own f .free) ∧
      KernelHalf (m.freePage (frameAddr f)) (Function.update own f .free) R :=
  ⟨h.freeKernel hf (by rintro ⟨⟩),
    hk.retag _ (by rw [hf]; rintro ⟨⟩) (by rw [hf]; rintro slot p ⟨⟩) _⟩

end Pcb

/-- The live directories are `pds`, and the frames are owned as `own`
says. -/
structure SysInv (s : System) (pds : Finset Nat) (own : Nat → Owner) : Prop where
  inv : VmInv s.machine pds own
  half : KernelHalf s.machine own (stacksInUse s.machine)
  dirs : ∀ pd, pd ∈ pds ↔ ∃ p task, s.proc p = some task ∧ task.pdirVirt = some pd
  dirInj : ∀ p q task task' pd, s.proc p = some task → s.proc q = some task' →
    task.pdirVirt = some pd → task'.pdirVirt = some pd → p = q
  pcb : ∀ p task, s.proc p = some task → own p = .kernel .pcb
  stack : ∀ p task, s.proc p = some task → ∃ slot < kernelStackSlots,
    task.kernelStackVirt = kernelStackTop slot ∧ s.machine.kstackBitmap slot = true
  stackInj : ∀ p q task task', s.proc p = some task → s.proc q = some task' →
    task.kernelStackVirt = task'.kernelStackVirt → p = q

namespace System

@[simp] theorem setMachine_machine (s : System) (m : Machine) :
    (s.setMachine m).machine = m := rfl
@[simp] theorem setMachine_proc (s : System) (m : Machine) : (s.setMachine m).proc = s.proc := rfl
@[simp] theorem setProc_machine (s : System) (p : Nat) (task : Option Process) :
    (s.setProc p task).machine = s.machine := rfl
theorem setProc_proc (s : System) (p q : Nat) (task : Option Process) :
    (s.setProc p task).proc q = if q = p then task else s.proc q :=
  Function.update_apply _ _ _ _

end System

namespace SysInv

variable {s : System} {pds : Finset Nat} {own : Nat → Owner} {p pd : Nat} {task : Process}

theorem mem_dirs (h : SysInv s pds own) (hp : s.proc p = some task)
    (hpd : task.pdirVirt = some pd) : pd ∈ pds :=
  (h.dirs pd).mpr ⟨p, task, hp, hpd⟩

theorem ne_boot (h : SysInv s pds own) (hpd : pd ∈ pds) : pd ≠ s.machine.bootPageDirectory := by
  rintro rfl
  have hdir := h.inv.dir _ hpd
  rw [h.inv.boot] at hdir
  cases hdir

theorem proc_eq_none (h : SysInv s pds own) (hp : own p ≠ .kernel .pcb) : s.proc p = none := by
  cases hproc : s.proc p with
  | none => rfl
  | some task => exact absurd (h.pcb p task hproc) hp

/-- The memory changes, the processes stay. -/
theorem setMachine (h : SysInv s pds own) {m : Machine} {own' : Nat → Owner}
    (hinv : VmInv m pds own') (hk : KernelFrame s.machine own m own') :
    SysInv (s.setMachine m) pds own' where
  inv := hinv
  half := by
    rw [System.setMachine_machine, stacksInUse_congr hk.kstack]
    exact h.half.frame h.inv.boot hk
  dirs := h.dirs
  dirInj := h.dirInj
  pcb := fun p task hp => (hk.owner p _).mp (h.pcb p task hp)
  stack := by
    intro p task hp
    rw [System.setMachine_machine, hk.kstack]
    exact h.stack p task hp
  stackInj := h.stackInj

/-- The kernel's own memory changes, the processes stay. -/
theorem setKernel (h : SysInv s pds own) {m : Machine} {own' : Nat → Owner}
    (hinv : VmInv m pds own') (hhalf : KernelHalf m own' (stacksInUse m))
    (hk : KernelStep s.machine own m own') (hslots : m.kstackBitmap = s.machine.kstackBitmap) :
    SysInv (s.setMachine m) pds own' where
  inv := hinv
  half := hhalf
  dirs := h.dirs
  dirInj := h.dirInj
  pcb := fun p task hp => hk.pcb p (h.pcb p task hp)
  stack := by
    intro p task hp
    rw [System.setMachine_machine, hslots]
    exact h.stack p task hp
  stackInj := h.stackInj

/-- Every live directory has a kernel stack of its own. -/
theorem card_le (h : SysInv s pds own) : pds.card ≤ kernelStackSlots := by
  rw [← Finset.card_range kernelStackSlots]
  apply Finset.card_le_card_of_forall_subsingleton fun pd slot => ∃ p task,
    s.proc p = some task ∧ task.pdirVirt = some pd ∧ task.kernelStackVirt = kernelStackTop slot
  · intro pd hpd
    obtain ⟨p, task, hp, hdir⟩ := (h.dirs pd).mp hpd
    obtain ⟨slot, hlt, htop, -⟩ := h.stack p task hp
    exact ⟨slot, Finset.mem_range.mpr hlt, p, task, hp, hdir, htop⟩
  · rintro slot - pd ⟨-, p, task, hp, hpd, htop⟩ pd' ⟨-, p', task', hp', hpd', htop'⟩
    have hsame := h.stackInj p p' task task' hp hp' (htop.trans htop'.symm)
    subst hsame
    rw [hp] at hp'
    cases hp'
    rw [hpd] at hpd'
    cases hpd'
    rfl

/-- A process gets other areas or another directory, or gives its directory up. -/
theorem replaceTask (h : SysInv s pds own) {pds' : Finset Nat} {own' : Nat → Owner} {m : Machine}
    {task' : Process} (hp : s.proc p = some task)
    (hstack : task'.kernelStackVirt = task.kernelStackVirt)
    (hinv : VmInv m pds' own') (hk : KernelFrame s.machine own m own')
    (hdirs : ∀ pd, pd ∈ pds' ↔
      task'.pdirVirt = some pd ∨ ∃ q t, q ≠ p ∧ s.proc q = some t ∧ t.pdirVirt = some pd)
    (hnew : ∀ q t pd, q ≠ p → s.proc q = some t → t.pdirVirt = some pd →
      task'.pdirVirt ≠ some pd) :
    SysInv ((s.setMachine m).setProc p (some task')) pds' own' where
  inv := hinv
  half := by
    rw [System.setProc_machine, System.setMachine_machine, stacksInUse_congr hk.kstack]
    exact h.half.frame h.inv.boot hk
  dirs := by
    intro pd
    rw [hdirs pd]
    constructor
    · rintro (hpd | ⟨q, t, hq, ht, hpd⟩)
      · exact ⟨p, task', by rw [System.setProc_proc, if_pos rfl], hpd⟩
      · exact ⟨q, t, by rw [System.setProc_proc, if_neg hq]; exact ht, hpd⟩
    · rintro ⟨q, t, ht, hpd⟩
      rw [System.setProc_proc] at ht
      split_ifs at ht with hq
      · cases ht
        exact Or.inl hpd
      · exact Or.inr ⟨q, t, hq, ht, hpd⟩
  dirInj := by
    intro q q' t t' pd ht ht' hpd hpd'
    rw [System.setProc_proc] at ht ht'
    split_ifs at ht ht' with hq hq' hq'
    · rw [hq, hq']
    · cases ht
      exact absurd hpd (hnew q' t' pd hq' ht' hpd')
    · cases ht'
      exact absurd hpd' (hnew q t pd hq ht hpd)
    · exact h.dirInj q q' t t' pd ht ht' hpd hpd'
  pcb := by
    intro q t ht
    rw [System.setProc_proc] at ht
    refine (hk.owner q _).mp ?_
    split_ifs at ht with hq
    · rw [hq]
      exact h.pcb p task hp
    · exact h.pcb q t ht
  stack := by
    intro q t ht
    rw [System.setProc_proc] at ht
    rw [System.setProc_machine, System.setMachine_machine, hk.kstack]
    split_ifs at ht with hq
    · cases ht
      rw [hstack]
      exact h.stack p task hp
    · exact h.stack q t ht
  stackInj := by
    intro q q' t t' ht ht' heq
    rw [System.setProc_proc] at ht ht'
    split_ifs at ht ht' with hq hq' hq'
    · rw [hq, hq']
    · cases ht
      rw [hstack] at heq
      rw [hq]
      exact h.stackInj p q' task t' hp ht' heq
    · cases ht'
      rw [hstack] at heq
      rw [hq']
      exact h.stackInj q p t task ht hp heq
    · exact h.stackInj q q' t t' ht ht' heq

/-- A process with the same directory. -/
theorem setVmas (h : SysInv s pds own) {own' : Nat → Owner} {m : Machine}
    (hp : s.proc p = some task) (hinv : VmInv m pds own')
    (hk : KernelFrame s.machine own m own') (vmas : List Vma) :
    SysInv ((s.setMachine m).setVmas p task vmas) pds own' := by
  refine h.replaceTask hp rfl hinv hk ?_ ?_
  · intro pd
    rw [h.dirs pd]
    constructor
    · rintro ⟨q, t, ht, hpd⟩
      by_cases hq : q = p
      · subst hq
        rw [hp] at ht
        cases ht
        exact Or.inl hpd
      · exact Or.inr ⟨q, t, hq, ht, hpd⟩
    · rintro (hpd | ⟨q, t, -, ht, hpd⟩)
      · exact ⟨p, task, hp, hpd⟩
      · exact ⟨q, t, ht, hpd⟩
  · intro q t pd hq ht hpd hpd'
    exact hq (h.dirInj q p t task pd ht hp hpd hpd')

/-- A process whose directory is replaced by a new one, or by none. -/
theorem setDir (h : SysInv s pds own) {own' : Nat → Owner} {m : Machine} {dir : Option Nat}
    {vmas : List Vma} (hp : s.proc p = some task) (hpd : task.pdirVirt = some pd)
    {pds' : Finset Nat} (hinv : VmInv m pds' own') (hk : KernelFrame s.machine own m own')
    (hpds : ∀ d, d ∈ pds' ↔ dir = some d ∨ d ∈ pds ∧ d ≠ pd)
    (hfresh : ∀ d, dir = some d → d ∉ pds) :
    SysInv ((s.setMachine m).setProc p
      (some { task with pdirVirt := dir, vmaHead := vmas })) pds' own' := by
  refine h.replaceTask hp rfl hinv hk ?_ ?_
  · intro d
    rw [hpds d]
    refine or_congr_right ?_
    rw [h.dirs d]
    constructor
    · rintro ⟨⟨q, t, ht, hd⟩, hne⟩
      refine ⟨q, t, ?_, ht, hd⟩
      rintro rfl
      rw [hp] at ht
      cases ht
      rw [hpd] at hd
      cases hd
      exact hne rfl
    · rintro ⟨q, t, hq, ht, hd⟩
      refine ⟨⟨q, t, ht, hd⟩, ?_⟩
      rintro rfl
      exact hq (h.dirInj q p t task d ht hp hd hpd)
  · intro q t d hq ht hd hdir
    exact hfresh d hdir ((h.dirs d).mpr ⟨q, t, ht, hd⟩)

/-- A new process: its directory, its PCB and its kernel stack were free. -/
theorem addTask (h : SysInv s pds own) {pds' : Finset Nat} {own' : Nat → Owner} {m : Machine}
    {slot dir : Nat} {vmas : List Vma} (hinv : VmInv m pds' own')
    (hhalf : KernelHalf m own' (stacksInUse m)) (hfree : own p ≠ .kernel .pcb)
    (hpcb : own' p = .kernel .pcb) (hkeep : ∀ f, own f = .kernel .pcb → own' f = .kernel .pcb)
    (hslot : slot < kernelStackSlots) (hunused : s.machine.kstackBitmap slot = false)
    (hused : m.kstackBitmap = Function.update s.machine.kstackBitmap slot true)
    (hpds : pds' = insert dir pds) (hdir : dir ∉ pds) :
    SysInv ((s.setMachine m).setProc p
      (some ⟨⟨some dir, vmas⟩, kernelStackTop slot⟩)) pds' own' := by
  have hnone := h.proc_eq_none hfree
  have htop : ∀ a b, kernelStackTop a = kernelStackTop b → a = b := by
    intro a b hab
    unfold kernelStackTop kernelStackBase kernelStackSlotSize kernelStackSlotPages at hab
    omega
  have hother : ∀ q t, s.proc q = some t → t.kernelStackVirt ≠ kernelStackTop slot := by
    intro q t ht heq
    obtain ⟨slot', -, htop', hbit⟩ := h.stack q t ht
    rw [htop', ] at heq
    rw [htop _ _ heq, hunused] at hbit
    cases hbit
  refine ⟨hinv, hhalf, ?_, ?_, ?_, ?_, ?_⟩
  · intro d
    rw [hpds, Finset.mem_insert, h.dirs d]
    constructor
    · rintro (rfl | ⟨q, t, ht, hd⟩)
      · exact ⟨p, _, by rw [System.setProc_proc, if_pos rfl], rfl⟩
      · refine ⟨q, t, ?_, hd⟩
        rw [System.setProc_proc, if_neg]
        · exact ht
        · rintro rfl
          rw [hnone] at ht
          cases ht
    · rintro ⟨q, t, ht, hd⟩
      rw [System.setProc_proc] at ht
      split_ifs at ht with hq
      · cases ht
        cases hd
        exact Or.inl rfl
      · exact Or.inr ⟨q, t, ht, hd⟩
  · intro q q' t t' d ht ht' hd hd'
    rw [System.setProc_proc] at ht ht'
    split_ifs at ht ht' with hq hq' hq'
    · rw [hq, hq']
    · cases ht
      cases hd
      exact absurd ((h.dirs _).mpr ⟨q', t', ht', hd'⟩) hdir
    · cases ht'
      cases hd'
      exact absurd ((h.dirs _).mpr ⟨q, t, ht, hd⟩) hdir
    · exact h.dirInj q q' t t' d ht ht' hd hd'
  · intro q t ht
    rw [System.setProc_proc] at ht
    split_ifs at ht with hq
    · rw [hq]
      exact hpcb
    · exact hkeep q (h.pcb q t ht)
  · intro q t ht
    rw [System.setProc_proc] at ht
    rw [System.setProc_machine, System.setMachine_machine, hused]
    split_ifs at ht with hq
    · cases ht
      exact ⟨slot, hslot, rfl, Function.update_self _ _ _⟩
    · obtain ⟨slot', hlt, htop', hbit⟩ := h.stack q t ht
      refine ⟨slot', hlt, htop', ?_⟩
      rw [Function.update_apply, hbit, ite_self]
  · intro q q' t t' ht ht' heq
    rw [System.setProc_proc] at ht ht'
    split_ifs at ht ht' with hq hq' hq'
    · rw [hq, hq']
    · cases ht
      exact absurd heq.symm (hother q' t' ht')
    · cases ht'
      exact absurd heq (hother q t ht)
    · exact h.stackInj q q' t t' ht ht' heq

/-- A dead task whose PCB is freed. -/
theorem removeTask (h : SysInv s pds own) {own' : Nat → Owner} {m : Machine} {slot : Nat}
    (hp : s.proc p = some task) (hdead : task.pdirVirt = none)
    (htop : task.kernelStackVirt = kernelStackTop slot) (hinv : VmInv m pds own')
    (hhalf : KernelHalf m own' (stacksInUse m))
    (hkeep : ∀ f, f ≠ p → own f = .kernel .pcb → own' f = .kernel .pcb)
    (hunused : m.kstackBitmap = Function.update s.machine.kstackBitmap slot false) :
    SysInv ((s.setMachine m).setProc p none) pds own' := by
  have hproc : ∀ q t, ((s.setMachine m).setProc p none).proc q = some t →
      q ≠ p ∧ s.proc q = some t := by
    intro q t ht
    rw [System.setProc_proc] at ht
    split_ifs at ht with hq
    exact ⟨hq, ht⟩
  refine ⟨hinv, hhalf, ?_, ?_, ?_, ?_, ?_⟩
  · intro d
    rw [h.dirs d]
    constructor
    · rintro ⟨q, t, ht, hd⟩
      refine ⟨q, t, ?_, hd⟩
      rw [System.setProc_proc, if_neg]
      · exact ht
      · rintro rfl
        rw [hp] at ht
        cases ht
        rw [hdead] at hd
        cases hd
    · rintro ⟨q, t, ht, hd⟩
      exact ⟨q, t, (hproc q t ht).2, hd⟩
  · intro q q' t t' d ht ht'
    exact h.dirInj q q' t t' d (hproc q t ht).2 (hproc q' t' ht').2
  · intro q t ht
    exact hkeep q (hproc q t ht).1 (h.pcb q t (hproc q t ht).2)
  · intro q t ht
    obtain ⟨hq, ht⟩ := hproc q t ht
    obtain ⟨slot', hlt, htop', hbit⟩ := h.stack q t ht
    refine ⟨slot', hlt, htop', ?_⟩
    rw [System.setProc_machine, System.setMachine_machine, hunused, Function.update_of_ne]
    · exact hbit
    · rintro rfl
      exact hq (h.stackInj q p t task ht hp (htop'.trans htop.symm))
  · intro q q' t t' ht ht'
    exact h.stackInj q q' t t' (hproc q t ht).2 (hproc q' t' ht').2

end SysInv

end EnclaveOS
