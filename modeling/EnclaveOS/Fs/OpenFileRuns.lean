import EnclaveOS.Fs.VfsSpec

/-!
# OpenFileRuns - open files over every run

Without `unlink` no node is ever freed, so no operation can fail and the
counters of the open files stay right over any run of any number of tasks.
-/

namespace EnclaveOS

open RefCount

/-- A state before the first process: no descriptor is open, and the nodes that the
kernel made are unused.  Only one of them is the console. -/
structure VfsState.Booted (s : VfsState) (console : Ptr) : Prop where
  table : ∀ x, s.fdTable x = none
  files : ∀ of, s.files of = none
  unused : ∀ n node, s.nodes n = some node → node.refCount = 0 ∧ node.isUnlinked = false
  device : ∀ n node, s.nodes n = some node → (node.driver = .console ↔ n = console)
  present : ∃ node, s.nodes console = some node ∧ node.flags &&& fsSystem = 0
  data : ∀ n node p, s.nodes n = some node → node.privateData = some p → (s.fileData p).isSome
  distinct : ∀ n node n' node' p, s.nodes n = some node → s.nodes n' = some node' →
    node.privateData = some p → node'.privateData = some p → n = n'
  owned : ∀ p, (s.fileData p).isSome → ∃ n node, s.nodes n = some node ∧ node.privateData = some p
  free : s.consoleOpenCount = 0

/-- Open files are counted, and every node is in the tree. -/
structure VfsInv (s : VfsState) : Prop where
  fd : FdInv s
  live : NodesLive s
  linked : ∀ n node, s.nodes n = some node → node.isUnlinked = false
  data : ∀ n node p, s.nodes n = some node → node.privateData = some p → (s.fileData p).isSome

theorem VfsState.Booted.refs {s : VfsState} {console : Ptr} (h : s.Booted console) (of : Ptr) :
    s.refs of = 0 := by
  refine refs_eq_zero_iff.mpr fun x _ => ?_
  rw [h.table x]
  simp

theorem VfsState.Booted.fdInv {s : VfsState} {console : Ptr} (h : s.Booted console) : FdInv s where
  counted of file hfile := by simp [h.files] at hfile
  live of := by simp [h.files, h.refs]
  closed task _ i := h.table (task, i)

namespace VfsInv

variable {s s' : VfsState}

theorem booted {console : Ptr} (h : s.Booted console) : VfsInv s where
  fd := h.fdInv
  live of file hfile := by simp [h.files] at hfile
  linked n node hnode := (h.unused n node hnode).2
  data := h.data

/-- Writing the counter of a node. -/
theorem setRefCount (h : VfsInv s) {n : Ptr} {node : VfsNode} (hnode : s.nodes n = some node)
    {count : Nat} (hfd : FdInv s') (hfiles : ∀ of file, s'.files of = some file →
      (s.nodes file.node).isSome)
    (hnodes : s'.nodes = Function.update s.nodes n (some { node with refCount := count }))
    (hdata : s'.fileData = s.fileData) : VfsInv s' := by
  refine ⟨hfd, fun of file hfile => ?_, fun m nd hm => ?_, fun m nd p hm hp => ?_⟩
  · rw [hnodes, Function.update_apply]
    split_ifs
    · rfl
    · exact hfiles of file hfile
  · rw [hnodes, Function.update_apply] at hm
    split_ifs at hm
    · cases hm
      exact h.linked n node hnode
    · exact h.linked m nd hm
  · rw [hdata]
    rw [hnodes, Function.update_apply] at hm
    split_ifs at hm
    · cases hm
      exact h.data n node p hnode hp
    · exact h.data m nd p hm hp

theorem closes (h : VfsInv s) {x : TaskId × Fd} (hcloses : Closes s x s') : VfsInv s' := by
  have hfd := hcloses.fdInv h.fd
  cases hcloses with
  | @shared of file hslot hfile hmany =>
    refine ⟨hfd, fun a fa hfa => ?_, h.linked, h.data⟩
    rw [VfsState.setFile_files, Function.update_apply] at hfa
    split_ifs at hfa
    · cases hfa
      exact h.live of file hfile
    · exact h.live a fa hfa
  | @last of file node s₁ hslot hfile hone hnode hput =>
    have hs₁ : s₁ = (s.setSlot x none).setNode file.node
        (some { node with refCount := pred32 node.refCount }) := by
      cases hput with
      | keep => rfl
      | release _ horphan => simp [h.linked _ node hnode] at horphan
    subst hs₁
    refine h.setRefCount hnode hfd (fun a fa hfa => ?_) rfl rfl
    rw [VfsState.setFile_files, Function.update_apply] at hfa
    split_ifs at hfa
    exact h.live a fa hfa

theorem retire (h : VfsInv s) {task : TaskId} (hempty : ∀ i, s.fdTable (task, i) = none)
    (status : FdStatus) : VfsInv (s.setStatus task status) :=
  ⟨h.fd.retire hempty status, h.live, h.linked, h.data⟩

theorem closeStable (T : TaskId → Prop) : CloseStable T VfsInv where
  inv _ h := h.fd
  live _ h := h.live
  closes _ _ _ _ h hcloses := h.closes hcloses
  retire _ _ status h hempty := h.retire hempty status

theorem shares (h : VfsInv s) {x : TaskId × Fd} (hshares : Shares s x s') : VfsInv s' := by
  have hfd := hshares.fdInv h.fd
  cases hshares with
  | @intro of file node hfree hactive hfile hnode =>
    refine h.setRefCount hnode hfd (fun a fa hfa => ?_) rfl rfl
    dsimp only [VfsState.setSlot, VfsState.setNode, VfsState.setFile] at hfa
    rw [Function.update_apply] at hfa
    split_ifs at hfa
    · cases hfa
      exact h.live of file hfile
    · exact h.live a fa hfa

theorem sameObjects (h : VfsInv s) (hsame : SameObjects s s') : VfsInv s' where
  fd := h.fd.congr hsame.status hsame.table hsame.files
  live := hsame.nodesLive h.live
  linked n node' hnode' := by
    obtain ⟨node, hnode, hfix⟩ := hsame.node hnode'
    rw [(VfsNode.fixed_eq hfix).2.2.2.2]
    exact h.linked n node hnode
  data n node' p hnode' hp := by
    obtain ⟨node, hnode, hfix⟩ := hsame.node hnode'
    rw [hsame.data]
    exact h.data n node p hnode ((VfsNode.fixed_eq hfix).2.2.1 ▸ hp)

theorem addNode (h : VfsInv s) {n : Ptr} {driver : NodeDriver} {privateData : Option Ptr}
    (hmakes : s.Makes n driver privateData) (size flags : Nat) :
    VfsInv (s.addNode n size flags driver privateData) := by
  obtain ⟨hfree, -, -⟩ := hmakes
  refine ⟨h.fd.congr rfl rfl rfl, fun of file hfile => ?_, fun m node hm => ?_,
    fun m node p hm hp => ?_⟩
  · dsimp only [VfsState.addNode, VfsState.setNode]
    rw [Function.update_apply]
    split_ifs
    · rfl
    · exact h.live of file hfile
  · dsimp only [VfsState.addNode, VfsState.setNode] at hm
    rw [Function.update_apply] at hm
    split_ifs at hm
    · cases hm
      rfl
    · exact h.linked m node hm
  · dsimp only [VfsState.addNode, VfsState.setNode] at hm ⊢
    rw [Function.update_apply] at hm
    split_ifs with hq
    · rfl
    · split_ifs at hm
      · cases hm
        exact absurd hp hq
      · exact h.data m node p hm hp

theorem opens (h : VfsInv s) {task : TaskId} {n : Ptr} {alloc : Option Ptr}
    (hactive : s.status task = .active) (hfresh : ∀ of, alloc = some of → s.files of = none)
    (hopens : Opens s task n alloc s') : VfsInv s' := by
  obtain hsame | ⟨s₁, node₁, of, i, file, hsame, -, hnode₁, -, rfl, hfd, hlive⟩ :=
    hopens.installs h.fd h.live hactive hfresh
  · exact h.sameObjects hsame
  · exact (h.sameObjects hsame).setRefCount hnode₁ hfd hlive rfl rfl

/-- A path lookup and the opening of its node. -/
theorem sysOpen (h : VfsInv s) {task : TaskId} {lookup : Lookup} {alloc : Option Ptr}
    (hactive : s.status task = .active) (hlookup : lookup.Possible s)
    (hfresh : ∀ of, alloc = some of → s.files of = none) (flags : Nat) :
    ∃ s' r, sysOpen s task lookup flags alloc = some (s', r) ∧ VfsInv s' := by
  obtain ⟨r, hres⟩ | ⟨n, s', r, -, hres, hopens⟩ |
    ⟨n, _, _, _, _, s', r, hmakes, hres, hopens⟩ := sysOpen_spec task flags alloc hlookup
  · exact ⟨s, r, hres, h⟩
  · exact ⟨s', r, hres, h.opens hactive hfresh hopens⟩
  · exact ⟨s', r, hres, (h.addNode hmakes _ _).opens hactive hfresh hopens⟩

theorem taskFork (h : VfsInv s) {parent child : TaskId} (hdead : s.status child = .dead) :
    ∃ s', taskFork s parent child = some s' ∧ VfsInv s' := by
  have hempty := h.fd.closed child (by simp [hdead])
  unfold EnclaveOS.taskFork
  rw [newTask_eq h.fd hdead]
  exact foldlM_inheritFd parent child (fun _ h => h.fd) (fun _ h => h.live) (fun _ _ _ h hsh _ => h.shares hsh)
    (List.finRange 256) (List.nodup_finRange 256) (h.retire hempty .active)
    (Function.update_self _ _ _) fun i _ => hempty i

/-- Every operation but `unlink` succeeds and keeps the invariant. -/
theorem step (h : VfsInv s) {op : FdOp} (hop : op.Possible s) (hlink : ∀ n, op ≠ .unlink n) :
    ∃ s', op.step s = some s' ∧ VfsInv s' := by
  cases op with
  | create task =>
    refine ⟨_, rfl, ?_⟩
    rw [newTask_eq h.fd hop]
    exact h.retire (h.fd.closed task (by simp [show s.status task = .dead from hop])) .active
  | mknod n size flags driver privateData => exact ⟨_, rfl, h.addNode hop size flags⟩
  | openFile task lookup flags alloc =>
    obtain ⟨s', r, hres, h'⟩ := h.sysOpen hop.1 hop.2.1 hop.2.2 flags
    exact ⟨s', by rw [FdOp.step, hres]; rfl, h'⟩
  | close task fd =>
    obtain ⟨-, hres⟩ | ⟨i, s', -, hres, hcloses⟩ := vfsCloseFd_spec h.fd h.live task fd
    · exact ⟨s, by rw [FdOp.step, hres]; rfl, h⟩
    · exact ⟨s', by rw [FdOp.step, hres]; rfl, h.closes hcloses⟩
  | dup task oldFd =>
    obtain ⟨-, r, hres⟩ | ⟨-, -, j, s', r, hres, hshares⟩ := sysDup_spec h.fd h.live hop oldFd
    · exact ⟨s, by rw [FdOp.step, hres]; rfl, h⟩
    · exact ⟨s', by rw [FdOp.step, hres]; rfl, h.shares hshares⟩
  | dup2 task oldFd newFd =>
    obtain ⟨-, r, hres⟩ | ⟨-, -, j, s₁, s', r, -, hres, h₁, -, hshares⟩ :=
      sysDup2_spec (fun _ h => h.fd) (fun _ h => h.live) h hop oldFd newFd
        fun _ _ _ _ _ hcloses => h.closes hcloses
    · exact ⟨s, by rw [FdOp.step, hres]; rfl, h⟩
    · exact ⟨s', by rw [FdOp.step, hres]; rfl, h₁.shares hshares⟩
  | fork parent child => exact h.taskFork hop.2
  | exec task => exact ⟨s, by rw [FdOp.step, sysExec_eq], h⟩
  | exit task victims isInit =>
    exact (closeStable fun _ => True).taskExit trivial (fun _ _ => trivial) h isInit
  | waitpid zombie =>
    exact ⟨_, rfl, h.retire (h.fd.closed zombie (by
      simp [show s.status zombie = .zombie from hop])) .dead⟩
  | unlink n => exact absurd rfl (hlink n)

end VfsInv

/-- Number of descriptors of tasks that are not dead that refer to an open file. -/
noncomputable def VfsState.liveRefs (s : VfsState) (of : Ptr) : Nat :=
  RefCount.refs (descriptors.filter fun x => s.status x.1 ≠ .dead) s.fdTable of

/-- A dead task has no descriptor. -/
theorem FdInv.liveRefs {s : VfsState} (h : FdInv s) (of : Ptr) : s.liveRefs of = s.refs of := by
  refine refs_congr_support (fun x hx => ?_) of
  rw [Finset.mem_filter]
  refine ⟨fun hmem => hmem.1, fun hmem => ⟨hmem, fun hdead => hx ?_⟩⟩
  exact h.closed x.1 (by simp [hdead]) x.2

/-- The operations that do not take a node out of the tree. -/
def FdOp.KeepsTree (s : VfsState) (op : FdOp) : Prop :=
  op.Possible s ∧ ∀ n, op ≠ .unlink n

/-- From boot on, whatever the tasks do with their descriptors: the counter of every
open file is the number of descriptors of tasks that are not dead that refer to it,
it is allocated exactly while that number is not zero, no descriptor refers to a
freed open file, and no operation touches freed memory. -/
theorem open_file_refs {s₀ s : VfsState} {console : Ptr} (hboot : s₀.Booted console)
    (hrun : Reach FdOp.step FdOp.KeepsTree s₀ s) :
    (∀ of file, s.files of = some file → file.refCount = s.liveRefs of) ∧
    (∀ of, (s.files of).isSome ↔ s.liveRefs of ≠ 0) ∧
    (∀ x of, s.fdTable x = some of → (s.files of).isSome) ∧
    ∀ op : FdOp, op.KeepsTree s → (op.step s).isSome := by
  have hinv : VfsInv s := by
    refine Reach.invariant (.booted hboot) (fun s op s' h hop hs => ?_) hrun
    obtain ⟨s₁, hs₁, h₁⟩ := h.step hop.1 hop.2
    rw [hs] at hs₁
    cases hs₁
    exact h₁
  refine ⟨fun of file hfile => ?_, fun of => ?_, fun x of hslot => ?_, fun op hop => ?_⟩
  · rw [hinv.fd.liveRefs]
    exact hinv.fd.counted of file hfile
  · rw [hinv.fd.liveRefs, hinv.fd.live of]
    exact Nat.pos_iff_ne_zero
  · exact (hinv.fd.live of).mpr (hinv.fd.file_of_slot hslot).1
  · obtain ⟨s', hs', -⟩ := hinv.step hop.1 hop.2
    rw [hs']
    rfl

/-- A machine with a console at 1, a tmpfs file at 2 with its data at 3, and one task. -/
def sampleBoot : VfsState where
  status task := if task = 1 then .active else .dead
  fdTable _ := none
  files _ := none
  nodes n :=
    if n = 1 then some ⟨0, 0x04, .console, none, 0, false⟩
    else if n = 2 then some ⟨0, 0x01, .tmpfs, some 3, 0, false⟩
    else none
  fileData p := if p = 3 then some ⟨none, 0, 0⟩ else none
  consoleOpenCount := 0

theorem sampleBoot_booted : sampleBoot.Booted 1 where
  table _ := rfl
  files _ := rfl
  unused n node hnode := by
    unfold sampleBoot at hnode
    dsimp only at hnode
    split_ifs at hnode <;> cases hnode <;> exact ⟨rfl, rfl⟩
  device n node hnode := by
    unfold sampleBoot at hnode
    dsimp only at hnode
    split_ifs at hnode with h1 <;> cases hnode <;> simp [h1]
  present := ⟨_, rfl, by decide⟩
  data n node p hnode hp := by
    unfold sampleBoot at hnode
    dsimp only at hnode
    split_ifs at hnode <;> cases hnode <;> cases hp
    rfl
  distinct n node n' node' p hnode hnode' hp hp' := by
    unfold sampleBoot at hnode hnode'
    dsimp only at hnode hnode'
    split_ifs at hnode <;> cases hnode <;> cases hp
    split_ifs at hnode' <;> cases hnode' <;> cases hp'
    simp [*]
  owned p hp := by
    refine ⟨2, ⟨0, 0x01, .tmpfs, some 3, 0, false⟩, rfl, ?_⟩
    unfold sampleBoot at hp
    dsimp only at hp
    split_ifs at hp with h3
    · rw [h3]
    · simp at hp
  free := rfl

/-- The console is opened and its descriptor copied twice: its open file counts. -/
theorem open_file_refs_sample :
    ∃ s, Reach FdOp.step FdOp.KeepsTree sampleBoot s ∧ s.liveRefs 9 ≠ 0 := by
  have hopen : Reach FdOp.step FdOp.KeepsTree sampleBoot _ :=
    .next (i := .openFile 1 (.found 1) 2 (some 9)) .start
      ⟨⟨rfl, ⟨_, rfl, rfl⟩, by rintro of ⟨⟩; rfl⟩, by simp⟩ rfl
  have hdup : Reach FdOp.step FdOp.KeepsTree sampleBoot _ :=
    .next (i := .dup2 1 0 1) hopen ⟨rfl, by simp⟩ rfl
  exact ⟨_, hdup, ((open_file_refs sampleBoot_booted hdup).2.1 9).mp rfl⟩

end EnclaveOS
