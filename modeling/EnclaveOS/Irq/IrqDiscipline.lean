import EnclaveOS.Irq.IrqErasure

/-!
# IrqDiscipline - the interrupt flag across the operations

The sections that save the flag keep the discipline, nested or not; `sys_open`,
`sys_unlink` and the console driver set the flag on return, whatever it was.
-/

namespace EnclaveOS

open PageWord Irq

namespace Irq

variable {κ σ α β : Type} {x : κ}

/-- Two pieces that do not update the same object. -/
theorem Guarded.append {head tail : List (Moment κ)} (hhead : Guarded x head)
    (htail : Guarded x tail) (h : ¬ Touched x head ∨ ¬ Touched x tail) :
    Guarded x (head ++ tail) := by
  obtain h | h := h
  · exact htail.append_left h
  · exact hhead.append_right h

theorem Guarded.of_append {head tail : List (Moment κ)} (h : Guarded x (head ++ tail)) :
    Guarded x head := by
  intro before m after hhead hbefore hafter
  apply h before m (after ++ tail) (by simp [hhead]) hbefore
  rw [← List.cons_append, touched_append]
  exact Or.inl hafter

theorem Guarded.of_append_right {head tail : List (Moment κ)} (h : Guarded x (head ++ tail)) :
    Guarded x tail := by
  intro before m after htail hbefore hafter
  apply h (head ++ before) m after (by simp [htail]) ?_ hafter
  rw [List.append_assoc, touched_append]
  exact Or.inr hbefore

theorem guarded_section {body : List (Moment κ)} (h : ∀ m ∈ body, m.irqOn = false)
    (flags : Bool) : Guarded x (body ++ [⟨flags, none⟩]) := by
  apply Guarded.append_right (guarded_of_clear h)
  simp

theorem disciplined_of_set {on : Bool} {r : Ran κ σ α} (hset : r.irqOn = true)
    (hguarded : ∀ x, Guarded x r.moments) : Disciplined on r ↔ on = true :=
  ⟨fun h => h.flag.symm.trans hset, fun hon => ⟨hset.trans hon.symm, hguarded⟩⟩

/-- An update with the flag of the entry, in code that sets it. -/
theorem not_disciplined_of_update {on : Bool} {r : Ran κ σ α} (hset : r.irqOn = true)
    (hm : ⟨on, some x⟩ ∈ r.moments) : ¬ Disciplined on r := by
  intro h
  have hon := h.flag.symm.trans hset
  exact not_guarded_of_mem hm rfl hon (h.guarded x)

/-- Code that, entered with the flag clear, sets it for good or never. -/
def Settles (p : Irq κ σ α) : Prop :=
  ∀ s r, p.run false s = some r → r.irqOn = true ∨ ∀ m ∈ r.moments, m.irqOn = false

/-- Code after a piece that is disciplined only with the flag clear. -/
theorem bind_disciplined_iff {p : Irq κ σ α} {f : α → Irq κ σ β} (hquiet : Quiet p)
    (hf : ∀ a, Settles (f a)) {on : Bool} {s : σ} {r₁ : Ran κ σ α} {r₂ : Ran κ σ β}
    (hflag : r₁.irqOn = on) (h₁ : p.run on s = some r₁)
    (h₂ : (f r₁.value).run r₁.irqOn r₁.state = some r₂)
    (hloud : on = true → r₁.moments ≠ [] → ∃ x, ¬ Guarded x r₁.moments) :
    Disciplined on { r₂ with moments := r₁.moments ++ r₂.moments } ↔
      (on = false ∨ r₁.moments = []) ∧ Disciplined on r₂ := by
  cases on with
  | true =>
    by_cases hnone : r₁.moments = []
    · simp only [hnone, List.nil_append, or_true, true_and]
    · obtain ⟨x, hx⟩ := hloud rfl hnone
      simp only [hnone, or_false, Bool.true_eq_false, false_and, iff_false]
      exact fun h => hx (h.guarded x).of_append
  | false =>
    simp only [true_or, true_and]
    rw [hflag] at h₂
    obtain hset | hclear := hf r₁.value r₁.state r₂ h₂
    · exact ⟨fun h => absurd (h.flag.symm.trans hset) (by simp),
        fun h => absurd (h.flag.symm.trans hset) (by simp)⟩
    · have hclear₁ := (hquiet s r₁ h₁).2
      refine ⟨fun h => ⟨h.flag, fun x => guarded_of_clear hclear⟩,
        fun h => ⟨h.flag, fun x => guarded_of_clear ?_⟩⟩
      simp only [List.mem_append]
      rintro m (hm | hm)
      · exact hclear₁ m hm
      · exact hclear m hm

end Irq

theorem kmallocIrq_saves (size : Nat) : Saves (kmallocIrq size) := by
  unfold kmallocIrq
  cases requestOf size with
  | none => exact (silent_pure 0).saves
  | some request =>
    apply Saves.bind_silent
    · apply Quiet.saves_critical
      apply quiet_get.bind
      intro s
      split
      · exact quiet_pure 0
      · exact (quiet_touch _ _).bind fun _ => (quiet_touch _ _).bind fun _ => quiet_pure _
    · intro virtAddr
      split
      · exact silent_pure 0
      · exact (silent_write _).bind fun _ => silent_pure _

theorem kfreeIrq_saves (ptr : Nat) : Saves (kfreeIrq ptr) := by
  unfold kfreeIrq
  apply silent_get.bind_saves
  intro s
  dsimp only
  split_ifs
  · exact (silent_pure ()).saves
  · exact (silent_pure ()).saves
  · exact (silent_pure ()).saves
  · split
    · exact silent_fail.saves
    · apply Quiet.saves_critical
      exact (quiet_touch _ _).bind fun _ => (quiet_write _).bind fun _ =>
        (quiet_touch _ _).bind fun _ => quiet_touch _ _

theorem pmmAllocPageIrq_saves : Saves pmmAllocPageIrq := by
  apply Quiet.saves_critical
  apply quiet_get.bind
  intro p
  split
  · exact quiet_pure _
  · exact (quiet_touch _ _).bind fun _ => quiet_pure _

theorem pmmFreePageIrq_quiet (physAddr : Word) : Quiet (pmmFreePageIrq physAddr) := by
  unfold pmmFreePageIrq
  apply quiet_get.bind
  intro p
  split
  · exact quiet_pure ()
  · apply Quiet.critical
    apply quiet_get.bind
    intro p
    split
    · exact quiet_pure ()
    · exact quiet_touch _ _

theorem pmmFreePageIrq_saves (physAddr : Word) : Saves (pmmFreePageIrq physAddr) := by
  unfold pmmFreePageIrq
  apply silent_get.bind_saves
  intro p
  split
  · exact (silent_pure ()).saves
  · apply Quiet.saves_critical
    apply quiet_get.bind
    intro p
    split
    · exact quiet_pure ()
    · exact quiet_touch _ _

theorem pmmIncRefIrq_saves (physAddr : Word) : Saves (pmmIncRefIrq physAddr) := by
  unfold pmmIncRefIrq
  apply silent_get.bind_saves
  intro p
  split
  · exact (silent_pure ()).saves
  · apply Quiet.saves_critical
    apply quiet_get.bind
    intro p
    split
    · exact quiet_touch _ _
    · exact quiet_pure ()

/-- The free inside the section finds the flag clear and leaves it clear. -/
theorem pmmDecRefIrq_saves (physAddr : Word) : Saves (pmmDecRefIrq physAddr) := by
  unfold pmmDecRefIrq
  apply silent_get.bind_saves
  intro p
  split
  · exact (silent_pure ()).saves
  · apply Quiet.saves_critical
    apply quiet_get.bind
    intro p
    split
    · apply (quiet_touch _ _).bind
      intro _
      apply quiet_get.bind
      intro p
      split
      · exact pmmFreePageIrq_quiet physAddr
      · exact quiet_pure ()
    · exact quiet_pure ()

theorem inheritFds_quiet (parent child : TaskId) (fds : List Fd) :
    Quiet (inheritFds parent child fds) := by
  induction fds with
  | nil => exact quiet_pure ()
  | cons i fds ih =>
    refine Quiet.bind ?_ fun _ => ih
    apply quiet_get.bind
    intro s
    split
    · exact quiet_write _
    · split
      · exact quiet_fail
      · exact (quiet_write _).bind fun _ => (quiet_touch _ _).bind fun _ => quiet_touch _ _

theorem forkFdsIrq_saves (parent child : TaskId) : Saves (forkFdsIrq parent child) :=
  (inheritFds_quiet parent child _).saves_critical

theorem kfreeObject_quiet (f : VfsState → VfsState) : Quiet (kfreeObject f) :=
  (quiet_touch _ _).critical

theorem kmallocObject_quiet (outcome : Option Ptr) : Quiet (kmallocObject outcome) := by
  apply Quiet.critical
  split
  · exact quiet_touch _ _
  · exact quiet_pure ()

/-- The moments of `kfree`, and of a `kmalloc` that finds memory. -/
def heapMoments (on : Bool) : List (Moment SharedObject) :=
  [⟨false, none⟩, ⟨false, some .heap⟩, ⟨on, none⟩]

theorem kfreeObject_run (f : VfsState → VfsState) (on : Bool) (s : VfsState) :
    (kfreeObject f).run on s = some ⟨(), on, f s, heapMoments on⟩ := by
  simp [kfreeObject, heapMoments]

theorem kmallocObject_run (outcome : Option Ptr) (on : Bool) (s : VfsState) :
    (kmallocObject outcome).run on s = some ⟨(), on, s,
      if outcome.isSome then heapMoments on else [⟨false, none⟩, ⟨on, none⟩]⟩ := by
  cases outcome <;> simp [kmallocObject, heapMoments]

/-- The callbacks of the other drivers keep the flag clear. -/
theorem closeCallbackIrq_quiet {node : VfsNode} (h : node.driver ≠ .console) :
    Quiet (closeCallbackIrq node) := by
  unfold closeCallbackIrq
  cases hdriver : node.driver with
  | tmpfs =>
    dsimp only
    split
    · split
      · exact quiet_pure node
      · apply quiet_get.bind
        intro s
        split
        · exact (kfreeObject_quiet _).bind fun _ => (kfreeObject_quiet _).bind fun _ => quiet_pure _
        · exact (kfreeObject_quiet _).bind fun _ => quiet_pure _
    · exact quiet_pure node
  | console => exact absurd hdriver h
  | other => exact quiet_pure node

/-- The moments of `devfs_console_close`. -/
def consoleCloseMoments (s : VfsState) : List (Moment SharedObject) :=
  ⟨false, none⟩ :: ((if 0 < s.consoleOpenCount then [⟨false, some .console⟩] else []) ++
    [⟨true, none⟩])

/-- The callback of the console sets the flag. -/
theorem closeCallbackIrq_console {node : VfsNode} (h : node.driver = .console) (on : Bool)
    (s : VfsState) : (closeCallbackIrq node).run on s =
      some ⟨node, true, s.devfsConsoleClose, consoleCloseMoments s⟩ := by
  unfold closeCallbackIrq
  rw [h]
  by_cases hcount : 0 < s.consoleOpenCount <;>
    simp [devfsConsoleCloseIrq, VfsState.devfsConsoleClose, consoleCloseMoments, hcount]

theorem dropNode_quiet (n : Ptr) {node : VfsNode} (h : node.driver ≠ .console) :
    Quiet (dropNode n node) := by
  apply (closeCallbackIrq_quiet h).bind
  intro node'
  refine Quiet.bind ?_ fun _ => kfreeObject_quiet _
  unfold freePrivateData
  split
  · exact kfreeObject_quiet _
  · exact quiet_pure ()

/-- The moments of `devfs_console_open`. -/
def consoleOpenMoments (s : VfsState) : List (Moment SharedObject) :=
  ⟨false, none⟩ :: ((if 0 < s.consoleOpenCount then [] else [⟨false, some .console⟩]) ++
    [⟨true, none⟩])

theorem devfsConsoleOpenIrq_run (on : Bool) (s : VfsState) :
    devfsConsoleOpenIrq.run on s = some ⟨if 0 < s.consoleOpenCount then -1 else 0, true,
      s.devfsConsoleOpen.1, consoleOpenMoments s⟩ := by
  by_cases hcount : 0 < s.consoleOpenCount <;>
    simp [devfsConsoleOpenIrq, VfsState.devfsConsoleOpen, consoleOpenMoments, hcount]

theorem devfsConsoleCloseIrq_run (on : Bool) (s : VfsState) :
    devfsConsoleCloseIrq.run on s =
      some ⟨(), true, s.devfsConsoleClose, consoleCloseMoments s⟩ := by
  by_cases hcount : 0 < s.consoleOpenCount <;>
    simp [devfsConsoleCloseIrq, VfsState.devfsConsoleClose, consoleCloseMoments, hcount]

theorem consoleOpenMoments_guarded (s : VfsState) (x : SharedObject) :
    Guarded x (consoleOpenMoments s) := by
  unfold consoleOpenMoments
  rw [← List.cons_append]
  apply guarded_section
  split <;> simp

theorem consoleCloseMoments_guarded (s : VfsState) (x : SharedObject) :
    Guarded x (consoleCloseMoments s) := by
  unfold consoleCloseMoments
  rw [← List.cons_append]
  apply guarded_section
  split <;> simp

theorem heapMoments_guarded (on : Bool) (x : SharedObject) : Guarded x (heapMoments on) := by
  have hclear : ∀ m ∈ [⟨false, none⟩, (⟨false, some .heap⟩ : Moment SharedObject)],
      m.irqOn = false := by simp
  exact guarded_section hclear on

/-- Two calls to the heap with interrupts on between them. -/
theorem heapMoments_not_guarded (mid tail : List (Moment SharedObject)) (on : Bool) :
    ¬ Guarded .heap (heapMoments true ++ mid ++ (heapMoments on ++ tail)) := by
  have hhead : Touched .heap [⟨false, none⟩, (⟨false, some .heap⟩ : Moment SharedObject)] := by
    simp
  have hset : ∃ m ∈ ⟨true, none⟩ :: mid, m.irqOn = true := by simp
  have htail : Touched .heap (heapMoments on ++ tail) := by simp [heapMoments]
  have hbreach := not_guarded hhead hset htail
  simpa [heapMoments] using hbreach

theorem walkFat_quiet (walk : List FatEntry) : Quiet (walkFat walk) := by
  induction walk with
  | nil => exact quiet_pure ()
  | cons entry walk ih =>
    exact (kmallocObject_quiet _).bind fun _ => (quiet_touch _ _).bind fun _ =>
      (kmallocObject_quiet _).bind fun _ => ih

/-- The moments of a lookup that makes nodes. -/
def walkMoments (on : Bool) : List FatEntry → List (Moment SharedObject)
  | [] => []
  | _ :: walk => heapMoments on ++ ⟨on, some .tree⟩ :: (heapMoments on ++ walkMoments on walk)

theorem walkFat_run (walk : List FatEntry) (on : Bool) (s : VfsState) :
    (walkFat walk).run on s = some ⟨(), on, s.walked walk, walkMoments on walk⟩ := by
  induction walk generalizing s with
  | nil => rfl
  | cons entry walk ih =>
    simp only [walkFat, bind_run, kmallocObject_run, Option.isSome_some, if_true, touch_run,
      Option.map_some, Option.bind_some, ih]
    rfl

/-- A node of a FAT directory is linked with interrupts on. -/
theorem walkMoments_not_guarded {walk : List FatEntry} (h : walkMoments true walk ≠ []) :
    ¬ Guarded .heap (walkMoments true walk) := by
  cases walk with
  | nil => exact absurd rfl h
  | cons entry walk =>
    have hheap := heapMoments_not_guarded [⟨true, some .tree⟩] (walkMoments true walk) true
    simpa [walkMoments] using hheap

theorem walkMoments_eq_nil {on : Bool} {walk : List FatEntry} :
    walkMoments on walk = [] ↔ walk = [] := by
  cases walk <;> simp [walkMoments]

/-- An operation on a path: what the lookup of the path does, and what follows. -/
theorem walk_disciplined_iff {p : Irq SharedObject VfsState α} (hp : Settles p) {on : Bool}
    {s : VfsState} {walk : List FatEntry} {r : Ran SharedObject VfsState α}
    (hrun : (walkFat walk >>= fun _ => p).run on s = some r) :
    ∃ r', p.run on (s.walked walk) = some r' ∧
      (Disciplined on r ↔ (on = false ∨ walk = []) ∧ Disciplined on r') := by
  obtain ⟨r₁, r₂, h₁, h₂, rfl⟩ := bind_eq_some.mp hrun
  rw [walkFat_run] at h₁
  cases h₁
  refine ⟨r₂, h₂, ?_⟩
  rw [← @walkMoments_eq_nil on]
  apply bind_disciplined_iff (walkFat_quiet walk) (fun _ => hp) rfl (walkFat_run walk on s) h₂
  rintro rfl hne
  exact ⟨.heap, walkMoments_not_guarded hne⟩

/-- The moments of a reference count between `cli` and `sti`. -/
def countMoments (n : Ptr) : List (Moment SharedObject) :=
  [⟨false, none⟩, ⟨false, some (.node n)⟩, ⟨true, none⟩]

theorem countRaw_run (n : Ptr) (f : VfsState → Option VfsState) (on : Bool) (s : VfsState) :
    (countRaw n f).run on s = (f s).map fun s' => ⟨(), true, s', countMoments n⟩ := by
  simp only [countRaw, bind_run, cli_run, touch_run, sti_run, Option.bind_some]
  cases f s <;> rfl

/-- A file that `sys_open` does not open. -/
def VfsNode.IsSystemFile (node : VfsNode) : Prop :=
  node.flags &&& fsSystem ≠ 0 ∧ node.flags &&& fsDirectory = 0

/-- The callback, with the flag that it leaves. -/
theorem openCallbackIrq_run (n : Ptr) (node : VfsNode) (flags : Nat) (on : Bool)
    (s : VfsState) : (openCallbackIrq n node flags).run on s =
      some ⟨(s.openCallback n node flags).2,
        if node.driver = .console then true else on, (s.openCallback n node flags).1,
        if node.driver = .console then consoleOpenMoments s else []⟩ := by
  unfold openCallbackIrq VfsState.openCallback
  cases node.driver with
  | tmpfs => simp
  | console =>
    rw [devfsConsoleOpenIrq_run]
    by_cases hcount : 0 < s.consoleOpenCount <;> simp [hcount, VfsState.devfsConsoleOpen]
  | other => simp

/-- Where the callback refuses, it is the console that is busy. -/
theorem VfsState.openCallback_ne_zero {s : VfsState} {n : Ptr} {node : VfsNode} {flags : Nat} :
    (s.openCallback n node flags).2 ≠ 0 ↔ node.driver = .console ∧ 0 < s.consoleOpenCount := by
  unfold VfsState.openCallback
  cases node.driver with
  | tmpfs => simp
  | console => by_cases hcount : 0 < s.consoleOpenCount <;> simp [hcount, VfsState.devfsConsoleOpen]
  | other => simp

@[simp]
theorem touched_heapMoments (x : SharedObject) (on : Bool) :
    Touched x (heapMoments on) ↔ x = .heap := by
  simp [heapMoments, eq_comm]

@[simp]
theorem touched_countMoments (x : SharedObject) (n : Ptr) :
    Touched x (countMoments n) ↔ x = .node n := by
  simp [countMoments, eq_comm]

theorem countMoments_guarded (n : Ptr) (x : SharedObject) : Guarded x (countMoments n) := by
  have hclear : ∀ m ∈ [⟨false, none⟩, (⟨false, some (.node n)⟩ : Moment SharedObject)],
      m.irqOn = false := by simp
  exact guarded_section hclear true

/-- The moments of the callback. -/
def openMoments (s : VfsState) (node : VfsNode) : List (Moment SharedObject) :=
  if node.driver = .console then consoleOpenMoments s else []

theorem touched_openMoments {x : SharedObject} {s : VfsState} {node : VfsNode}
    (h : Touched x (openMoments s node)) : x = .console := by
  unfold openMoments consoleOpenMoments at h
  split_ifs at h <;> simp_all

theorem openMoments_guarded (s : VfsState) (node : VfsNode) (x : SharedObject) :
    Guarded x (openMoments s node) := by
  unfold openMoments
  split_ifs
  · exact consoleOpenMoments_guarded s x
  · exact guarded_of_not_touched (touched_nil x)

/-- The moments of `sys_open` once the node is counted: the descriptor, and the way back where
there is no memory or no descriptor. -/
def openTail (n : Ptr) : Option Ptr → Option Fd → List (Moment SharedObject)
  | none, _ => ⟨false, none⟩ :: ⟨true, none⟩ :: countMoments n
  | some _, none => heapMoments true ++ (heapMoments true ++ countMoments n)
  | some _, some _ => heapMoments true

theorem VfsState.freeFd_congr {s s' : VfsState} (h : s'.fdTable = s.fdTable) (task : TaskId) :
    s'.freeFd task = s.freeFd task := by
  unfold VfsState.freeFd
  rw [h]

theorem VfsState.openCallback_fdTable (s : VfsState) (n : Ptr) (node : VfsNode) (flags : Nat) :
    (s.openCallback n node flags).1.fdTable = s.fdTable := by
  unfold VfsState.openCallback VfsState.devfsConsoleOpen VfsState.tmpfsOpenNode
  cases node.driver with
  | tmpfs => dsimp only; split <;> rfl
  | console => dsimp only; split <;> rfl
  | other => rfl

theorem VfsState.incNode_fdTable {s s' : VfsState} {n : Ptr} (h : s.incNode n = some s') :
    s'.fdTable = s.fdTable := by
  obtain ⟨node, -, h⟩ := Option.bind_eq_some_iff.mp h
  cases h
  rfl

/-- The ways through `sys_open` once the node is counted. -/
theorem openFinishIrq_run {task : TaskId} {n : Ptr} {flags : Nat} {alloc : Option Ptr}
    {s : VfsState} {r : Ran SharedObject VfsState Int}
    (hrun : (openFinishIrq task n flags alloc).run true s = some r) :
    r.irqOn = true ∧ r.moments = openTail n alloc (s.freeFd task) := by
  unfold openFinishIrq at hrun
  cases alloc with
  | none =>
    cases hdec : s.decNode n with
    | none => simp [kmallocObject_run, countRaw_run, hdec] at hrun
    | some s' =>
      simp [kmallocObject_run, countRaw_run, hdec] at hrun
      subst hrun
      exact ⟨rfl, rfl⟩
  | some of =>
    cases hfree : s.freeFd task with
    | some i =>
      simp [kmallocObject_run, hfree] at hrun
      subst hrun
      exact ⟨rfl, rfl⟩
    | none =>
      cases hdec : s.decNode n with
      | none => simp [kmallocObject_run, kfreeObject_run, countRaw_run, hfree, hdec] at hrun
      | some s' =>
        simp [kmallocObject_run, kfreeObject_run, countRaw_run, hfree, hdec] at hrun
        subst hrun
        exact ⟨rfl, rfl⟩

/-- The ways through `sys_open` once the node is known. -/
theorem openNodeIrq_cases {task : TaskId} {n : Ptr} {flags : Nat} {alloc : Option Ptr} {on : Bool}
    {s : VfsState} {r : Ran SharedObject VfsState Int}
    (hrun : (openNodeIrq task n flags alloc).run on s = some r) :
    ∃ node, s.nodes n = some node ∧
      ((node.IsSystemFile ∧ r.irqOn = on ∧ r.moments = []) ∨
      (¬ node.IsSystemFile ∧ (node.driver = .console ∧ 0 < s.consoleOpenCount) ∧
        r.irqOn = true ∧ r.moments = consoleOpenMoments s) ∨
      (¬ node.IsSystemFile ∧ ¬ (node.driver = .console ∧ 0 < s.consoleOpenCount) ∧
        r.irqOn = true ∧
        r.moments = openMoments s node ++ (countMoments n ++ openTail n alloc (s.freeFd task)))) := by
  unfold openNodeIrq at hrun
  rw [bind_run, get_run, Option.bind_some, Option.map_eq_some_iff] at hrun
  obtain ⟨r, hrun, rfl⟩ := hrun
  cases hnode : s.nodes n with
  | none => simp [hnode] at hrun
  | some node =>
    refine ⟨node, rfl, ?_⟩
    simp only [hnode] at hrun
    by_cases hsystem : node.IsSystemFile
    · have hif : node.flags &&& fsSystem ≠ 0 ∧ node.flags &&& fsDirectory = 0 := hsystem
      rw [if_pos hif, pure_run] at hrun
      cases hrun
      exact Or.inl ⟨hsystem, rfl, rfl⟩
    · have hif : ¬ (node.flags &&& fsSystem ≠ 0 ∧ node.flags &&& fsDirectory = 0) := hsystem
      rw [if_neg hif] at hrun
      obtain ⟨r₁, r₂, h₁, h₂, rfl⟩ := bind_eq_some.mp hrun
      rw [openCallbackIrq_run] at h₁
      cases h₁
      dsimp only at h₂ ⊢
      refine Or.inr ?_
      by_cases hbusy : (s.openCallback n node flags).2 ≠ 0
      · rw [if_pos hbusy, pure_run] at h₂
        cases h₂
        have hconsole := VfsState.openCallback_ne_zero.mp hbusy
        exact Or.inl ⟨hsystem, hconsole, by simp [hconsole.1], by simp [hconsole.1]⟩
      · rw [if_neg hbusy] at h₂
        have hconsole := hbusy ∘ VfsState.openCallback_ne_zero.mpr
        refine Or.inr ⟨hsystem, hconsole, ?_⟩
        obtain ⟨r₃, r₄, h₃, h₄, rfl⟩ := bind_eq_some.mp h₂
        rw [countRaw_run] at h₃
        obtain ⟨s', hinc, rfl⟩ := Option.map_eq_some_iff.mp h₃
        have hfree : s'.freeFd task = s.freeFd task :=
          VfsState.freeFd_congr ((VfsState.incNode_fdTable hinc).trans
            (s.openCallback_fdTable n node flags)) task
        obtain ⟨hset, htail⟩ := openFinishIrq_run h₄
        dsimp only at htail
        rw [hfree] at htail
        refine ⟨hset, ?_⟩
        rw [htail]
        rfl

/-- The calls of `sys_open` on a node that keep the discipline: a system file is refused at
once, and with the flag set nothing is undone. -/
def VfsState.OpenKeeps (s : VfsState) (task : TaskId) (on : Bool) (n : Ptr) (alloc : Option Ptr) :
    Prop :=
  ∃ node, s.nodes n = some node ∧ (node.IsSystemFile ∨ on = true ∧
    ((node.driver = .console ∧ 0 < s.consoleOpenCount) ∨
      (alloc ≠ none ∧ s.freeFd task ≠ none)))

/-- The way back from a counted node is not guarded. -/
theorem openTail_guarded {s : VfsState} {node : VfsNode} {n : Ptr} {alloc : Option Ptr}
    {free : Option Fd} :
    (∀ x, Guarded x (openMoments s node ++ (countMoments n ++ openTail n alloc free))) ↔
      alloc ≠ none ∧ free ≠ none := by
  cases alloc with
  | none =>
    simp only [ne_eq, not_true_eq_false, false_and, iff_false]
    intro h
    have hhead : Touched (.node n) (openMoments s node ++
        [⟨false, none⟩, (⟨false, some (.node n)⟩ : Moment SharedObject)]) := by simp
    have hset : ∃ m ∈ [(⟨true, none⟩ : Moment SharedObject), ⟨false, none⟩, ⟨true, none⟩],
        m.irqOn = true := by simp
    have hbreach := not_guarded hhead hset ((touched_countMoments (.node n) n).mpr rfl)
    apply hbreach
    simpa [countMoments, openTail] using h (.node n)
  | some of =>
    cases free with
    | none =>
      simp only [ne_eq, not_true_eq_false, and_false, iff_false]
      intro h
      have hhead : Touched .heap (openMoments s node ++ countMoments n ++
          [⟨false, none⟩, (⟨false, some .heap⟩ : Moment SharedObject)]) := by simp
      have hset : ∃ m ∈ [(⟨true, none⟩ : Moment SharedObject)], m.irqOn = true := by simp
      have htail : Touched .heap (heapMoments true ++ countMoments n) := by simp
      apply not_guarded hhead hset htail
      simpa [openTail, heapMoments] using h .heap
    | some i =>
      simp only [ne_eq, reduceCtorEq, not_false_eq_true, and_self, iff_true]
      intro x
      have hcount : Guarded x (countMoments n ++ heapMoments true) := by
        apply (countMoments_guarded n x).append (heapMoments_guarded true x)
        cases x <;> simp
      apply (openMoments_guarded s node x).append hcount
      by_cases hx : x = .console
      · simp [hx]
      · exact Or.inl (hx ∘ touched_openMoments)

theorem openNodeIrq_disciplined {task : TaskId} {n : Ptr} {flags : Nat} {alloc : Option Ptr}
    {on : Bool} {s : VfsState} {r : Ran SharedObject VfsState Int}
    (hrun : (openNodeIrq task n flags alloc).run on s = some r) :
    Disciplined on r ↔ s.OpenKeeps task on n alloc := by
  obtain ⟨node, hnode, hcases⟩ := openNodeIrq_cases hrun
  have hkeeps : s.OpenKeeps task on n alloc ↔ node.IsSystemFile ∨ on = true ∧
      ((node.driver = .console ∧ 0 < s.consoleOpenCount) ∨
        (alloc ≠ none ∧ s.freeFd task ≠ none)) := by
    simp [VfsState.OpenKeeps, hnode]
  rw [hkeeps]
  obtain ⟨hsystem, hflag, hnone⟩ | ⟨hsystem, hbusy, hset, hmoments⟩ |
    ⟨hsystem, hbusy, hset, hmoments⟩ := hcases
  · simp only [hsystem, true_or, iff_true]
    exact ⟨hflag, fun x => guarded_of_not_touched (by simp [hnone])⟩
  · simp only [hsystem, hbusy, and_self, true_or, and_true, false_or]
    exact disciplined_of_set hset fun x => hmoments ▸ consoleOpenMoments_guarded s x
  · simp only [hsystem, hbusy, false_or]
    rw [← openTail_guarded (s := s) (n := n), ← hmoments]
    exact ⟨fun h => ⟨h.flag.symm.trans hset, h.guarded⟩,
      fun h => (disciplined_of_set hset h.2).mpr h.1⟩

theorem openNodeIrq_settles (task : TaskId) (n : Ptr) (flags : Nat) (alloc : Option Ptr) :
    Settles (openNodeIrq task n flags alloc) := by
  intro s r hrun
  obtain ⟨node, -, hcases⟩ := openNodeIrq_cases hrun
  obtain ⟨-, -, hnone⟩ | ⟨-, -, hset, -⟩ | ⟨-, -, hset, -⟩ := hcases
  · exact Or.inr (by simp [hnone])
  · exact Or.inl hset
  · exact Or.inl hset

/-- The ways through `sys_open` once the path is resolved that keep the discipline. -/
def OpenTarget.Keeps (s : VfsState) (task : TaskId) (on : Bool) (alloc : Option Ptr) :
    OpenTarget → Prop
  | failed _ => True
  | found n => s.OpenKeeps task on n alloc
  | create isDir node data => node = none ∨ (on = false ∧ isDir = false ∧ data = none)

/-- A node that `tmpfs_create` has made is not a system file, and it opens. -/
theorem openNodeIrq_addNode {task : TaskId} {n : Ptr} {nodeFlags flags : Nat}
    {privateData alloc : Option Ptr} {on : Bool} {s : VfsState} {r : Ran SharedObject VfsState Int}
    (hflags : nodeFlags &&& fsSystem = 0)
    (hrun : (openNodeIrq task n flags alloc).run on
      (s.addNode n 0 nodeFlags .tmpfs privateData) = some r) : r.irqOn = true := by
  obtain ⟨node, hnode, hcases⟩ := openNodeIrq_cases hrun
  have hmade : node = ⟨0, nodeFlags, .tmpfs, privateData, 0, false⟩ := by
    simpa [VfsState.addNode, VfsState.setNode, eq_comm] using hnode
  obtain ⟨hsystem, -, -⟩ | ⟨-, -, hset, -⟩ | ⟨-, -, hset, -⟩ := hcases
  · exact absurd (hmade ▸ hflags) hsystem.1
  · exact hset
  · exact hset

/-- A new node is linked, or taken back, with interrupts as they were on entry. -/
theorem createIrq_disciplined {task : TaskId} {isDir : Bool} {node data alloc : Option Ptr}
    {flags : Nat} {on : Bool} {s : VfsState} {r : Ran SharedObject VfsState Int}
    (hrun : (openTargetIrq task (.create isDir node data) flags alloc).run on s = some r) :
    (Disciplined on r ↔ node = none ∨ (on = false ∧ isDir = false ∧ data = none)) ∧
      (on = false → r.irqOn = true ∨ ∀ m ∈ r.moments, m.irqOn = false) := by
  have hfsSystem : fsDirectory &&& fsSystem = 0 ∧ 0x01 &&& fsSystem = 0 := by decide
  cases node with
  | none =>
    simp [openTargetIrq, tmpfsCreateIrq, kmallocObject_run] at hrun
    subst hrun
    refine ⟨?_, fun hon => Or.inr (by simp [hon])⟩
    simp only [true_or, iff_true]
    exact ⟨rfl, fun x => guarded_of_not_touched (by simp)⟩
  | some n =>
    have hheap := heapMoments_not_guarded
    cases isDir with
    | true =>
      simp only [openTargetIrq, tmpfsCreateIrq, bind_run, kmallocObject_run, touch_run, pure_run,
        if_true, Option.map_some, Option.bind_some, Option.map_eq_some_iff] at hrun
      obtain ⟨r₂, h₂, rfl⟩ := hrun
      have hset := openNodeIrq_addNode hfsSystem.1 h₂
      refine ⟨?_, fun _ => Or.inl hset⟩
      simp only [reduceCtorEq, Bool.true_eq_false, false_and, and_false, or_self, iff_false]
      exact not_disciplined_of_update (x := .tree) hset (by simp)
    | false =>
      cases data with
      | none =>
        simp only [openTargetIrq, tmpfsCreateIrq, bind_run, kmallocObject_run, kfreeObject_run,
          pure_run, Option.map_some, Option.bind_some, Bool.false_eq_true, if_false,
          Option.some.injEq] at hrun
        subst hrun
        refine ⟨?_, ?_⟩
        · cases on with
          | true =>
            simp only [reduceCtorEq, Bool.true_eq_false, false_and, or_self, iff_false]
            intro h
            have hbreach := hheap [⟨false, none⟩, ⟨true, none⟩] [] true
            apply hbreach
            simpa using h.guarded .heap
          | false =>
            simp only [and_self, or_true, iff_true]
            exact ⟨rfl, fun x => guarded_of_clear (by simp [heapMoments])⟩
        · rintro rfl
          exact Or.inr (by simp [heapMoments])
      | some p =>
        simp only [openTargetIrq, tmpfsCreateIrq, bind_run, kmallocObject_run, touch_run, pure_run,
          Bool.false_eq_true, if_false, Option.map_some, Option.bind_some,
          Option.map_eq_some_iff] at hrun
        obtain ⟨r₂, h₂, rfl⟩ := hrun
        have hset := openNodeIrq_addNode hfsSystem.2 h₂
        refine ⟨?_, fun _ => Or.inl hset⟩
        simp only [reduceCtorEq, and_false, or_self, iff_false]
        exact not_disciplined_of_update (x := .tree) hset (by simp)

theorem openTargetIrq_disciplined {task : TaskId} {target : OpenTarget} {flags : Nat}
    {alloc : Option Ptr} {on : Bool} {s : VfsState} {r : Ran SharedObject VfsState Int}
    (hrun : (openTargetIrq task target flags alloc).run on s = some r) :
    Disciplined on r ↔ target.Keeps s task on alloc := by
  cases target with
  | failed errno =>
    cases hrun
    simp only [OpenTarget.Keeps, iff_true]
    exact ⟨rfl, fun x => guarded_of_not_touched (touched_nil x)⟩
  | found n => exact openNodeIrq_disciplined hrun
  | create isDir node data => exact (createIrq_disciplined hrun).1

theorem openTargetIrq_settles (task : TaskId) (target : OpenTarget) (flags : Nat)
    (alloc : Option Ptr) : Settles (openTargetIrq task target flags alloc) := by
  intro s r hrun
  cases target with
  | failed errno =>
    cases hrun
    exact Or.inr (by simp)
  | found n => exact openNodeIrq_settles task n flags alloc s r hrun
  | create isDir node data => exact (createIrq_disciplined hrun).2 rfl

/-- The moments of an orphan that nobody has open. -/
theorem closeCallbackIrq_guarded {node : VfsNode} {s : VfsState}
    {r : Ran SharedObject VfsState VfsNode}
    (hrun : (closeCallbackIrq node).run false s = some r) :
    (r.irqOn = false ∧ ∀ m ∈ r.moments, m.irqOn = false) ∨
      ∃ s', r.irqOn = true ∧ r.moments = consoleCloseMoments s' := by
  by_cases h : node.driver = .console
  · rw [closeCallbackIrq_console h] at hrun
    cases hrun
    exact Or.inr ⟨s, rfl, rfl⟩
  · exact Or.inl (closeCallbackIrq_quiet h s r hrun)

theorem touched_consoleCloseMoments {x : SharedObject} {s : VfsState}
    (h : Touched x (consoleCloseMoments s)) : x = .console := by
  unfold consoleCloseMoments at h
  split_ifs at h <;> simp_all

theorem unlinkedMoments_guarded {r : Ran SharedObject VfsState VfsNode}
    (h : (r.irqOn = false ∧ ∀ m ∈ r.moments, m.irqOn = false) ∨
      ∃ s, r.irqOn = true ∧ r.moments = consoleCloseMoments s) (x : SharedObject) :
    Guarded x (⟨false, none⟩ :: ⟨false, some .tree⟩ ::
      (r.moments ++ (heapMoments r.irqOn ++ [⟨true, none⟩]))) := by
  obtain ⟨hoff, hclear⟩ | ⟨s, hon, hmoments⟩ := h
  · rw [← List.append_assoc, ← List.cons_append, ← List.cons_append]
    apply guarded_section
    simp only [hoff, heapMoments, List.mem_cons, List.mem_append, List.not_mem_nil, or_false]
    rintro m (rfl | rfl | hm | rfl | rfl | rfl)
    · rfl
    · rfl
    · exact hclear m hm
    · rfl
    · rfl
    · rfl
  · rw [hmoments, hon]
    have htree : Guarded x [⟨false, none⟩, ⟨false, some .tree⟩] := guarded_of_clear (by simp)
    have hheap : Guarded x (heapMoments true ++ [⟨true, none⟩]) :=
      (heapMoments_guarded true x).append_right (by simp)
    have hconsole : ¬ Touched x (consoleCloseMoments s) ∨ x = .console := by
      by_cases hx : Touched x (consoleCloseMoments s)
      · exact Or.inr (touched_consoleCloseMoments hx)
      · exact Or.inl hx
    have hrest : Guarded x (consoleCloseMoments s ++ (heapMoments true ++ [⟨true, none⟩])) := by
      apply (consoleCloseMoments_guarded s x).append hheap
      obtain hx | rfl := hconsole
      · exact Or.inl hx
      · exact Or.inr (by simp)
    apply htree.append hrest
    obtain hx | rfl := hconsole
    · by_cases hx' : x = .tree
      · subst hx'
        exact Or.inr (by simp [hx])
      · exact Or.inl (by simp [Ne.symm hx'])
    · exact Or.inl (by simp)

/-- The section of `sys_unlink` is guarded, whatever the callback does to the flag. -/
theorem unlinkTargetIrq_run {target : UnlinkTarget} (h : ∀ errno, target ≠ .failed errno)
    {on : Bool} {s : VfsState} {r : Ran SharedObject VfsState Int}
    (hrun : (unlinkTargetIrq target).run on s = some r) :
    r.irqOn = true ∧ ∀ x, Guarded x r.moments := by
  have hsti : ∀ x : SharedObject, Guarded x [⟨false, none⟩, ⟨true, none⟩] := fun x =>
    guarded_of_not_touched (by simp)
  cases target with
  | failed errno => exact absurd rfl (h errno)
  | missing =>
    cases hrun
    exact ⟨rfl, hsti⟩
  | refused errno =>
    cases hrun
    exact ⟨rfl, hsti⟩
  | unlinked n =>
    unfold unlinkTargetIrq at hrun
    cases hnode : s.nodes n with
    | none => simp [hnode] at hrun
    | some node =>
      by_cases hfree : node.refCount = 0
      · simp only [bind_run, cli_run, get_run, touch_run, hnode, hfree, if_true, kfreeObject_run,
          sti_run, pure_run, Option.map_some, Option.bind_some, Option.map_eq_some_iff,
          Option.bind_eq_some_iff] at hrun
        obtain ⟨_, ⟨_, ⟨_, ⟨r₁, h₁, ⟨⟩⟩, rfl⟩, ⟨⟩⟩, rfl⟩ := hrun
        refine ⟨rfl, fun x => ?_⟩
        exact unlinkedMoments_guarded (closeCallbackIrq_guarded h₁) x
      · simp only [bind_run, cli_run, get_run, touch_run, hnode, hfree, if_false, sti_run,
          pure_run, Option.map_some, Option.bind_some, Option.some.injEq] at hrun
        subst hrun
        refine ⟨rfl, fun x => ?_⟩
        have hclear : ∀ m ∈ [⟨false, none⟩, (⟨false, some .tree⟩ : Moment SharedObject)],
            m.irqOn = false := by simp
        exact guarded_section hclear true

/-- The ways through `sys_unlink` once the directory is known that keep the discipline. -/
def UnlinkTarget.Keeps (on : Bool) : UnlinkTarget → Prop
  | failed _ => True
  | _ => on = true

theorem UnlinkTarget.keeps_iff {target : UnlinkTarget} (h : ∀ errno, target ≠ .failed errno)
    (on : Bool) : target.Keeps on ↔ on = true := by
  cases target with
  | failed errno => exact absurd rfl (h errno)
  | missing => rfl
  | refused errno => rfl
  | unlinked n => rfl

theorem unlinkTargetIrq_disciplined {target : UnlinkTarget} {on : Bool} {s : VfsState}
    {r : Ran SharedObject VfsState Int} (hrun : (unlinkTargetIrq target).run on s = some r) :
    Disciplined on r ↔ target.Keeps on := by
  by_cases h : ∀ errno, target ≠ .failed errno
  · obtain ⟨hset, hguarded⟩ := unlinkTargetIrq_run h hrun
    rw [UnlinkTarget.keeps_iff h]
    exact disciplined_of_set hset hguarded
  · push Not at h
    obtain ⟨errno, rfl⟩ := h
    cases hrun
    simp only [UnlinkTarget.Keeps, iff_true]
    exact ⟨rfl, fun x => guarded_of_not_touched (touched_nil x)⟩

theorem unlinkTargetIrq_settles (target : UnlinkTarget) : Settles (unlinkTargetIrq target) := by
  intro s r hrun
  by_cases h : ∀ errno, target ≠ .failed errno
  · exact Or.inl (unlinkTargetIrq_run h hrun).1
  · push Not at h
    obtain ⟨errno, rfl⟩ := h
    cases hrun
    exact Or.inr (by simp)

/-- A node of the console that is unlinked and open once. -/
def VfsState.LastConsole (s : VfsState) (n : Ptr) : Prop :=
  ∃ node, s.nodes n = some node ∧ pred32 node.refCount = 0 ∧ node.isUnlinked = true ∧
    node.driver = .console

/-- The close ends the last open file of such a node. -/
def VfsState.DropsConsole (s : VfsState) (task : TaskId) (fd : Int) : Prop :=
  ∃ i of file, fdIndex fd = some i ∧ s.fdTable (task, i) = some of ∧
    s.files of = some file ∧ pred32 file.refCount = 0 ∧ s.LastConsole file.node

/-- The end of an orphan of the console frees the node with the flag set. -/
theorem dropNode_console (n : Ptr) (node : VfsNode) (h : node.driver = .console) (on : Bool)
    (s : VfsState) : ∃ r head, (dropNode n node).run on s = some r ∧ r.irqOn = true ∧
      r.moments = head ++ heapMoments true := by
  unfold dropNode freePrivateData
  by_cases hdata : node.privateData.isSome = true <;>
    simp [closeCallbackIrq_console h, kfreeObject_run, hdata, ← List.append_assoc]

/-- What the last close of an open file does to its node. -/
theorem putNodeIrq_run (n : Ptr) {s : VfsState} {node : VfsNode} (hnode : s.nodes n = some node)
    (on : Bool) : (putNodeIrq n).run on s =
      ((if pred32 node.refCount = 0 ∧ node.isUnlinked = true then
          dropNode n { node with refCount := pred32 node.refCount }
        else pure ()).run on
          (s.setNode n (some { node with refCount := pred32 node.refCount }))).map fun r =>
        { r with moments := ⟨on, some (.node n)⟩ :: r.moments } := by
  unfold putNodeIrq
  rw [bind_run, touch_run]
  simp [VfsState.decNode, hnode]

/-- The last close is quiet, unless the node is an orphan of the console. -/
theorem putNodeIrq_quiet {n : Ptr} {s : VfsState} {r : Ran SharedObject VfsState Unit}
    (h : ¬ s.LastConsole n) (hrun : (putNodeIrq n).run false s = some r) :
    r.irqOn = false ∧ ∀ m ∈ r.moments, m.irqOn = false := by
  cases hnode : s.nodes n with
  | none => simp [putNodeIrq, VfsState.decNode, hnode] at hrun
  | some node =>
    rw [putNodeIrq_run n hnode] at hrun
    obtain ⟨r, hr, rfl⟩ := Option.map_eq_some_iff.mp hrun
    simp only [List.mem_cons, forall_eq_or_imp, true_and]
    split_ifs at hr with hgone
    · have hdriver : node.driver ≠ .console := fun hconsole =>
        h ⟨node, hnode, hgone.1, hgone.2, hconsole⟩
      have hquiet : Quiet (dropNode n { node with refCount := pred32 node.refCount }) :=
        dropNode_quiet n hdriver
      exact hquiet _ r hr
    · exact quiet_pure () _ r hr

theorem putNodeIrq_console {n : Ptr} {s : VfsState} {r : Ran SharedObject VfsState Unit}
    (h : s.LastConsole n) {on : Bool} (hrun : (putNodeIrq n).run on s = some r) :
    r.irqOn = true ∧ ∃ head, r.moments = head ++ heapMoments true := by
  obtain ⟨node, hnode, hzero, hunlinked, hconsole⟩ := h
  rw [putNodeIrq_run n hnode, if_pos ⟨hzero, hunlinked⟩] at hrun
  obtain ⟨r, hr, rfl⟩ := Option.map_eq_some_iff.mp hrun
  obtain ⟨r', head, hr', hset, hmoments⟩ :=
    dropNode_console n { node with refCount := pred32 node.refCount } hconsole on _
  rw [hr'] at hr
  cases hr
  exact ⟨hset, _ :: head, by rw [hmoments]; rfl⟩

/-- The end of an open file in `vfs_close_fd`. -/
theorem endFileIrq_run {last : Prop} [Decidable last] {of n : Ptr} {s : VfsState}
    {r : Ran SharedObject VfsState Unit}
    (hrun : (if last then do
        putNodeIrq n
        kfreeObject fun s => s.setFile of none
      else pure ()).run false s = some r) :
    (¬ (last ∧ s.LastConsole n) → ∀ m ∈ r.moments, m.irqOn = false) ∧
      (last ∧ s.LastConsole n →
        ∃ head, r.moments = head ++ heapMoments true ++ heapMoments true) := by
  by_cases hlast : last
  · rw [if_pos hlast] at hrun
    obtain ⟨r₁, r₂, h₁, h₂, rfl⟩ := bind_eq_some.mp hrun
    simp only [hlast, true_and]
    refine ⟨fun hconsole => ?_, fun hconsole => ?_⟩
    · obtain ⟨hoff, hclear⟩ := putNodeIrq_quiet hconsole h₁
      rw [hoff] at h₂
      have hclear₂ := (kfreeObject_quiet _ _ r₂ h₂).2
      simp only [List.mem_append]
      rintro m (hm | hm)
      · exact hclear m hm
      · exact hclear₂ m hm
    · obtain ⟨hset, head, hmoments⟩ := putNodeIrq_console hconsole h₁
      rw [hset, kfreeObject_run] at h₂
      cases h₂
      exact ⟨head, by rw [hmoments]⟩
  · rw [if_neg hlast] at hrun
    cases hrun
    simp [hlast]

/-- The section of `vfs_close_fd` restores the flag; only the end of an orphan of the console
frees with the flag set. -/
theorem vfsCloseFdIrq_disciplined {task : TaskId} {fd : Int} {on : Bool} {s : VfsState}
    {r : Ran SharedObject VfsState Int} (hrun : (vfsCloseFdIrq task fd).run on s = some r) :
    Disciplined on r ↔ ¬ s.DropsConsole task fd := by
  have hbad : ∀ value : Int, Disciplined on (⟨value, on, s, []⟩ : Ran SharedObject VfsState Int) :=
    fun value => ⟨rfl, fun x => guarded_of_not_touched (touched_nil x)⟩
  unfold vfsCloseFdIrq at hrun
  rw [bind_run, get_run, Option.bind_some, Option.map_eq_some_iff] at hrun
  obtain ⟨r, hrun, rfl⟩ := hrun
  cases hfd : fdIndex fd with
  | none =>
    simp only [hfd, pure_run] at hrun
    cases hrun
    simpa [VfsState.DropsConsole, hfd] using hbad _
  | some i =>
    cases hslot : s.fdTable (task, i) with
    | none =>
      simp only [hfd, hslot, pure_run] at hrun
      cases hrun
      simpa [VfsState.DropsConsole, hfd, hslot] using hbad _
    | some of =>
      cases hfile : s.files of with
      | none => simp [hfd, hslot, hfile] at hrun
      | some file =>
        have hdrops : s.DropsConsole task fd ↔
            pred32 file.refCount = 0 ∧ s.LastConsole file.node := by
          simp [VfsState.DropsConsole, hfd, hslot, hfile]
        simp only [hfd, hslot, hfile, bind_run, write_run, critical_run, touch_run, pure_run,
          Option.map_some, Option.bind_some, Option.map_eq_some_iff, Option.bind_eq_some_iff] at hrun
        obtain ⟨_, ⟨_, ⟨_, ⟨r', hend, rfl⟩, rfl⟩, ⟨⟩⟩, rfl⟩ := hrun
        obtain ⟨hquiet, hloud⟩ := endFileIrq_run hend
        rw [hdrops]
        by_cases hconsole : pred32 file.refCount = 0 ∧ s.LastConsole file.node
        · obtain ⟨head, hmoments⟩ := hloud hconsole
          refine iff_of_false (fun h => ?_) (not_not_intro hconsole)
          have hbreach := heapMoments_not_guarded [] [⟨on, none⟩] true
          apply hbreach
          have hheap : Guarded .heap (([⟨false, none⟩, ⟨false, some (.file of)⟩] ++ head) ++
              (heapMoments true ++ (heapMoments true ++ [⟨on, none⟩]))) := by
            simpa [hmoments] using h.guarded .heap
          simpa using hheap.of_append_right
        · refine iff_of_true ⟨rfl, fun x => ?_⟩ hconsole
          have hclear : ∀ m ∈ ⟨false, none⟩ :: ⟨false, some (.file of)⟩ :: r'.moments,
              m.irqOn = false := by
            simpa using hquiet hconsole
          simpa using guarded_section hclear on

/-- The parts of the kernel that the operations work on. -/
structure IrqState where
  heap : HeapState
  pages : Pmm
  vfs : VfsState

/-- A call of one of the operations. -/
inductive IrqOp
  | kmalloc (size : Nat)
  | kfree (ptr : Nat)
  | pmmAllocPage
  | pmmFreePage (physAddr : Word)
  | pmmIncRef (physAddr : Word)
  | pmmDecRef (physAddr : Word)
  | vfsCloseFd (task : TaskId) (fd : Int)
  | sysOpen (task : TaskId) (walk : List FatEntry) (target : OpenTarget) (flags : Nat)
    (alloc : Option Ptr)
  | sysUnlink (walk : List FatEntry) (target : UnlinkTarget)
  | devfsConsoleOpen
  | devfsConsoleClose
  | forkFds (parent child : TaskId)

def onHeap (p : Irq SharedObject HeapState α) : Irq SharedObject IrqState Unit :=
  zoom IrqState.heap (fun heap s => { s with heap := heap }) p

def onPages (p : Irq SharedObject Pmm α) : Irq SharedObject IrqState Unit :=
  zoom IrqState.pages (fun pages s => { s with pages := pages }) p

def onVfs (p : Irq SharedObject VfsState α) : Irq SharedObject IrqState Unit :=
  zoom IrqState.vfs (fun vfs s => { s with vfs := vfs }) p

def IrqOp.code : IrqOp → Irq SharedObject IrqState Unit
  | .kmalloc size => onHeap (kmallocIrq size)
  | .kfree ptr => onHeap (kfreeIrq ptr)
  | .pmmAllocPage => onPages pmmAllocPageIrq
  | .pmmFreePage physAddr => onPages (pmmFreePageIrq physAddr)
  | .pmmIncRef physAddr => onPages (pmmIncRefIrq physAddr)
  | .pmmDecRef physAddr => onPages (pmmDecRefIrq physAddr)
  | .vfsCloseFd task fd => onVfs (vfsCloseFdIrq task fd)
  | .sysOpen task walk target flags alloc => onVfs (sysOpenIrq task walk target flags alloc)
  | .sysUnlink walk target => onVfs (sysUnlinkIrq walk target)
  | .devfsConsoleOpen => onVfs devfsConsoleOpenIrq
  | .devfsConsoleClose => onVfs devfsConsoleCloseIrq
  | .forkFds parent child => onVfs (forkFdsIrq parent child)

/-- The calls that keep the discipline.  A path with nodes to make is resolved with interrupts off,
and the sections between `cli` and `sti` are entered with interrupts on. -/
def IrqOp.Keeps (on : Bool) (s : IrqState) : IrqOp → Prop
  | .vfsCloseFd task fd => ¬ s.vfs.DropsConsole task fd
  | .sysOpen task walk target _ alloc =>
    (on = false ∨ walk = []) ∧ target.Keeps (s.vfs.walked walk) task on alloc
  | .sysUnlink walk target => (on = false ∨ walk = []) ∧ target.Keeps on
  | .devfsConsoleOpen => on = true
  | .devfsConsoleClose => on = true
  | _ => True

/-- A part of the state whose code is disciplined however it is entered. -/
theorem zoom_saves {σ τ : Type} {part : σ → τ} {put : τ → σ → σ} {p : Irq SharedObject τ α}
    (hp : Saves p) {on : Bool} {s : σ} {r : Ran SharedObject σ Unit}
    (hrun : (zoom part put p).run on s = some r) : Disciplined on r ↔ True := by
  obtain ⟨r', hr', hiff⟩ := zoom_eq_some hrun
  rw [hiff]
  exact iff_of_true (hp on (part s) r' hr') trivial

/-- A call returns with the flag that it found, and updates every shared object with the flag
clear, exactly when it keeps the discipline. -/
theorem irq_discipline (op : IrqOp) (on : Bool) (s : IrqState) (r : Ran SharedObject IrqState Unit)
    (hrun : op.code.run on s = some r) : Disciplined on r ↔ op.Keeps on s := by
  unfold IrqOp.code onHeap onPages onVfs at hrun
  cases op with
  | kmalloc size => exact zoom_saves (kmallocIrq_saves size) hrun
  | kfree ptr => exact zoom_saves (kfreeIrq_saves ptr) hrun
  | pmmAllocPage => exact zoom_saves pmmAllocPageIrq_saves hrun
  | pmmFreePage physAddr => exact zoom_saves (pmmFreePageIrq_saves physAddr) hrun
  | pmmIncRef physAddr => exact zoom_saves (pmmIncRefIrq_saves physAddr) hrun
  | pmmDecRef physAddr => exact zoom_saves (pmmDecRefIrq_saves physAddr) hrun
  | vfsCloseFd task fd =>
    obtain ⟨r', hr', hiff⟩ := zoom_eq_some hrun
    exact hiff.trans (vfsCloseFdIrq_disciplined hr')
  | sysOpen task walk target flags alloc =>
    obtain ⟨r', hr', hiff⟩ := zoom_eq_some hrun
    obtain ⟨r'', hr'', hwalk⟩ :=
      walk_disciplined_iff (openTargetIrq_settles task target flags alloc) hr'
    rw [hiff, hwalk, openTargetIrq_disciplined hr'']
    rfl
  | sysUnlink walk target =>
    obtain ⟨r', hr', hiff⟩ := zoom_eq_some hrun
    obtain ⟨r'', hr'', hwalk⟩ := walk_disciplined_iff (unlinkTargetIrq_settles target) hr'
    rw [hiff, hwalk, unlinkTargetIrq_disciplined hr'']
    rfl
  | devfsConsoleOpen =>
    obtain ⟨r', hr', hiff⟩ := zoom_eq_some hrun
    rw [devfsConsoleOpenIrq_run, Option.some.injEq] at hr'
    subst hr'
    exact hiff.trans (disciplined_of_set rfl (consoleOpenMoments_guarded s.vfs))
  | devfsConsoleClose =>
    obtain ⟨r', hr', hiff⟩ := zoom_eq_some hrun
    rw [devfsConsoleCloseIrq_run, Option.some.injEq] at hr'
    subst hr'
    exact hiff.trans (disciplined_of_set rfl (consoleCloseMoments_guarded s.vfs))
  | forkFds parent child => exact zoom_saves (forkFdsIrq_saves parent child) hrun

/-- A machine on which nobody has opened the console. -/
def quietMachine : IrqState where
  heap := heapInit fun _ => 0
  pages := ⟨fun _ => false, fun _ => 0, 16, 0, 16, 0, 0⟩
  vfs := ⟨fun _ => .dead, fun _ => none, fun _ => none, fun _ => none, fun _ => none, 0⟩

/-- With interrupts on, the console opens as it should. -/
theorem irq_discipline_console_open :
    ∃ r, IrqOp.devfsConsoleOpen.code.run true quietMachine = some r ∧ Disciplined true r :=
  ⟨_, rfl, (irq_discipline .devfsConsoleOpen true quietMachine _ rfl).mpr rfl⟩

/-- A system call opens the console: it is entered with interrupts off, and goes on with interrupts
on. -/
theorem console_open_enables_interrupts :
    ¬ ∀ (op : IrqOp) (on : Bool) (s : IrqState) (r : Ran SharedObject IrqState Unit),
      op.code.run on s = some r → Disciplined on r := by
  intro h
  have hopen := h .devfsConsoleOpen false quietMachine _ rfl
  exact absurd hopen.flag (by decide)

end EnclaveOS
