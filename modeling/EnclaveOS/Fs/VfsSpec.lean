import EnclaveOS.Foundation.RefCount
import EnclaveOS.Foundation.Run
import EnclaveOS.Fs.Vfs
import Mathlib.Data.Fintype.Prod
import Mathlib.Data.Set.Finite.Basic

/-!
# VfsSpec - the counter of an open file

An open file is allocated exactly while descriptors refer to it, and its counter
is their number.  Every operation keeps this as long as no node is freed under an
open file; the nodes are the subject of `NodeSpec`.
-/

namespace EnclaveOS

open RefCount

/-- The descriptors of all tasks. -/
noncomputable def descriptors : Finset (TaskId × Fd) :=
  (Set.toFinite Set.univ).toFinset

theorem mem_descriptors (x : TaskId × Fd) : x ∈ descriptors :=
  (Set.Finite.mem_toFinset _).mpr (Set.mem_univ x)

/-- Number of descriptors that refer to an open file. -/
noncomputable def VfsState.refs (s : VfsState) (of : Ptr) : Nat :=
  RefCount.refs descriptors s.fdTable of

/-- An open file is allocated while descriptors refer to it, and counts them. -/
structure FdInv (s : VfsState) : Prop where
  counted : ∀ of file, s.files of = some file → file.refCount = s.refs of
  live : ∀ of, (s.files of).isSome ↔ 0 < s.refs of
  closed : ∀ task, s.status task ≠ .active → ∀ i, s.fdTable (task, i) = none

/-- No open file refers to a node that is not allocated. -/
def NodesLive (s : VfsState) : Prop :=
  ∀ of file, s.files of = some file → (s.nodes file.node).isSome

theorem VfsState.refs_le (s : VfsState) (of : Ptr) : s.refs of ≤ 268435456 := by
  have hcard : Fintype.card (TaskId × Fd) = 268435456 := by
    rw [Fintype.card_prod, Fintype.card_fin, Fintype.card_fin]
  rw [← hcard]
  exact (Finset.card_filter_le _ _).trans (Finset.card_le_univ _)

theorem pred32_pos {n : Nat} (hpos : 0 < n) : pred32 n = n - 1 :=
  if_neg (by omega)

theorem succ32_eq {n : Nat} (hfit : n ≤ 268435456) : succ32 n = n + 1 :=
  if_neg (by omega)

namespace FdInv

variable {s s' : VfsState} {x : TaskId × Fd} {of : Ptr} {file : OpenFile}

theorem congr (h : FdInv s) (hstatus : s'.status = s.status) (htable : s'.fdTable = s.fdTable)
    (hfiles : s'.files = s.files) : FdInv s' := by
  have hrefs : ∀ a, s'.refs a = s.refs a := fun a => by
    unfold VfsState.refs
    rw [htable]
  refine ⟨fun a file hfile => ?_, fun a => ?_, fun task hne i => ?_⟩
  · rw [hrefs]
    exact h.counted a file (hfiles ▸ hfile)
  · rw [hrefs, hfiles]
    exact h.live a
  · rw [htable]
    exact h.closed task (hstatus ▸ hne) i

/-- An allocated file behind a descriptor. -/
theorem file_of_slot (h : FdInv s) (hslot : s.fdTable x = some of) :
    0 < s.refs of ∧ ∃ file, s.files of = some file ∧ file.refCount = s.refs of := by
  have hpos : 0 < s.refs of := refs_pos (mem_descriptors x) hslot
  obtain ⟨file, hfile⟩ := Option.isSome_iff_exists.mp ((h.live of).mpr hpos)
  exact ⟨hpos, file, hfile, h.counted of file hfile⟩

/-- Writing a descriptor, when the files it leaves and enters are counted anew. -/
theorem setSlot (h : FdInv s) {v : Option Ptr} (hstatus : s'.status = s.status)
    (htable : s'.fdTable = Function.update s.fdTable x v)
    (hactive : v ≠ none → s.status x.1 = .active)
    (hother : ∀ a, s.fdTable x ≠ some a → v ≠ some a → s'.files a = s.files a)
    (hself : ∀ a, s.fdTable x = some a ∨ v = some a →
      (∀ file, s'.files a = some file → file.refCount = s'.refs a) ∧
        ((s'.files a).isSome ↔ 0 < s'.refs a)) : FdInv s' := by
  have hrefs : ∀ a, s.fdTable x ≠ some a → v ≠ some a → s'.refs a = s.refs a := by
    intro a hold hnew
    have hupd := refs_update (mem_descriptors x) s.fdTable v a
    rw [if_neg hold, if_neg hnew, Nat.add_zero, Nat.add_zero, ← htable] at hupd
    exact hupd
  refine ⟨fun a file hfile => ?_, fun a => ?_, fun task hne i => ?_⟩
  · by_cases ha : s.fdTable x = some a ∨ v = some a
    · exact (hself a ha).1 file hfile
    · rw [not_or] at ha
      rw [hrefs a ha.1 ha.2]
      exact h.counted a file (hother a ha.1 ha.2 ▸ hfile)
  · by_cases ha : s.fdTable x = some a ∨ v = some a
    · exact (hself a ha).2
    · rw [not_or] at ha
      rw [hrefs a ha.1 ha.2, hother a ha.1 ha.2]
      exact h.live a
  · have hold := h.closed task (hstatus ▸ hne) i
    rw [htable, Function.update_apply]
    split_ifs with hx
    · by_contra hv
      refine (hstatus ▸ hne) ?_
      have hact := hactive hv
      rw [← hx] at hact
      exact hact
    · exact hold

/-- A descriptor is dropped. -/
theorem drop (h : FdInv s) (hslot : s.fdTable x = some of) (hstatus : s'.status = s.status)
    (htable : s'.fdTable = Function.update s.fdTable x none)
    (hother : ∀ a, a ≠ of → s'.files a = s.files a)
    (hself : s'.files of = if s.refs of = 1 then none
      else some { file with refCount := s.refs of - 1 }) : FdInv s' := by
  obtain ⟨hpos, -⟩ := h.file_of_slot hslot
  have hrefs : s'.refs of = s.refs of - 1 := by
    have hrem := refs_remove (mem_descriptors x) hslot of
    rw [← htable, if_pos rfl] at hrem
    exact hrem
  refine h.setSlot hstatus htable (by simp) (fun a hold _ => hother a ?_) fun a ha => ?_
  · rintro rfl
    exact hold hslot
  · obtain rfl : of = a := by simpa [hslot] using ha
    rw [hself, hrefs]
    split_ifs with hone
    · simp [hone]
    · refine ⟨fun file hfile => ?_, ?_⟩
      · cases hfile
        rfl
      · simp only [Option.isSome_some, true_iff]
        omega

/-- A free descriptor takes a file that counts one more reference. -/
theorem take (h : FdInv s) (hslot : s.fdTable x = none) (hactive : s.status x.1 = .active)
    (hstatus : s'.status = s.status) (htable : s'.fdTable = Function.update s.fdTable x (some of))
    (hother : ∀ a, a ≠ of → s'.files a = s.files a)
    (hself : s'.files of = some file) (hcount : file.refCount = s.refs of + 1) : FdInv s' := by
  have hrefs : s'.refs of = s.refs of + 1 := by
    have hins := refs_install (mem_descriptors x) hslot of of
    rw [← htable, if_pos rfl] at hins
    exact hins
  refine h.setSlot hstatus htable (fun _ => hactive) (fun a _ hnew => hother a ?_) fun a ha => ?_
  · rintro rfl
    exact hnew rfl
  · obtain rfl : of = a := by simpa [hslot] using ha
    rw [hself, hrefs]
    refine ⟨fun file' hfile => ?_, by simp⟩
    cases hfile
    exact hcount

/-- A task without descriptors changes its state. -/
theorem retire (h : FdInv s) {task : TaskId} (hempty : ∀ i, s.fdTable (task, i) = none)
    (status : FdStatus) : FdInv (s.setStatus task status) := by
  refine ⟨h.counted, h.live, fun t hne i => ?_⟩
  by_cases ht : t = task
  · rw [ht]
    exact hempty i
  · refine h.closed t ?_ i
    rwa [VfsState.setStatus_status, Function.update_of_ne ht] at hne

end FdInv

/-- The last open file of `n` goes away: the node loses a reference, or is an
orphan and freed with its data. -/
inductive PutNode (s : VfsState) (n : Ptr) (node : VfsNode) : VfsState → Prop
  | keep (hkeep : ¬(pred32 node.refCount = 0 ∧ node.isUnlinked = true)) :
      PutNode s n node (s.setNode n (some { node with refCount := pred32 node.refCount }))
  | release {s' : VfsState} (hzero : pred32 node.refCount = 0) (horphan : node.isUnlinked = true)
      (hstatus : s'.status = s.status) (htable : s'.fdTable = s.fdTable)
      (hfiles : s'.files = s.files) (hnodes : s'.nodes = Function.update s.nodes n none)
      (hdata : s'.fileData = fun p => if node.privateData = some p then none else s.fileData p)
      (hconsole : node.driver ≠ .console → s'.consoleOpenCount = s.consoleOpenCount) :
      PutNode s n node s'

theorem putNode_spec {s : VfsState} {n : Ptr} {node : VfsNode} (hnode : s.nodes n = some node) :
    ∃ s', s.putNode n = some s' ∧ PutNode s n node s' := by
  unfold VfsState.putNode
  rw [hnode]
  dsimp only [Option.bind_eq_bind, Option.bind_some]
  split_ifs with hcase
  · refine ⟨_, rfl, ?_⟩
    unfold VfsState.closeCallback
    cases hdriver : node.driver with
    | tmpfs =>
      dsimp only
      rw [if_pos hcase.2]
      exact .release hcase.1 hcase.2 rfl rfl rfl rfl (by funext p; simp) fun _ => rfl
    | console =>
      dsimp only [VfsState.devfsConsoleClose]
      split_ifs
      · exact .release hcase.1 hcase.2 rfl rfl rfl rfl rfl fun h => absurd hdriver h
      · exact .release hcase.1 hcase.2 rfl rfl rfl rfl rfl fun h => absurd hdriver h
    | other => exact .release hcase.1 hcase.2 rfl rfl rfl rfl rfl fun _ => rfl
  · exact ⟨_, rfl, .keep hcase⟩

/-- All that closing the descriptor `x` does: an open file that is still shared
loses a reference, the last one takes the open file and a reference of its node. -/
inductive Closes (s : VfsState) (x : TaskId × Fd) : VfsState → Prop
  | shared {of : Ptr} {file : OpenFile} (hslot : s.fdTable x = some of)
      (hfile : s.files of = some file) (hmany : 1 < s.refs of) :
      Closes s x ((s.setSlot x none).setFile of (some { file with refCount := s.refs of - 1 }))
  | last {of : Ptr} {file : OpenFile} {node : VfsNode} {s' : VfsState}
      (hslot : s.fdTable x = some of) (hfile : s.files of = some file)
      (hone : s.refs of = 1) (hnode : s.nodes file.node = some node)
      (hput : PutNode (s.setSlot x none) file.node node s') :
      Closes s x (s'.setFile of none)

section Close

variable {s s' : VfsState} {x : TaskId × Fd} {task : TaskId}

theorem PutNode.frame {n : Ptr} {node : VfsNode} (h : PutNode s n node s') :
    s'.status = s.status ∧ s'.fdTable = s.fdTable ∧ s'.files = s.files := by
  cases h with
  | keep => exact ⟨rfl, rfl, rfl⟩
  | release _ _ hstatus htable hfiles => exact ⟨hstatus, htable, hfiles⟩

namespace Closes

theorem status (h : Closes s x s') : s'.status = s.status := by
  cases h with
  | shared => rfl
  | last _ _ _ _ hput => exact hput.frame.1

theorem table (h : Closes s x s') : s'.fdTable = Function.update s.fdTable x none := by
  cases h with
  | shared => rfl
  | last _ _ _ _ hput => exact hput.frame.2.1

theorem fdInv (h : Closes s x s') (hinv : FdInv s) : FdInv s' := by
  refine (?_ : ∃ of file, s.fdTable x = some of ∧ (∀ a, a ≠ of → s'.files a = s.files a) ∧
    s'.files of = if s.refs of = 1 then none
      else some { (file : OpenFile) with refCount := s.refs of - 1 }).elim
    fun of hof => ?_
  · cases h with
    | @shared of file hslot hfile hmany =>
      refine ⟨of, file, hslot, fun a ha => Function.update_of_ne ha _ _, ?_⟩
      rw [if_neg (by omega)]
      exact Function.update_self _ _ _
    | @last of file node _ hslot hfile hone hnode hput =>
      refine ⟨of, file, hslot, fun a ha => ?_, ?_⟩
      · rw [VfsState.setFile_files, Function.update_of_ne ha, hput.frame.2.2]
        rfl
      · rw [if_pos hone]
        exact Function.update_self _ _ _
  · obtain ⟨file, hslot, hother, hself⟩ := hof
    exact hinv.drop hslot h.status h.table hother hself

end Closes

@[simp]
theorem fdIndex_coe (i : Fd) : fdIndex i = some i := by
  unfold fdIndex
  rw [dif_pos ⟨by omega, by omega⟩]
  simp

/-- A descriptor argument is rejected, or its descriptor is closed. -/
theorem vfsCloseFd_spec (hinv : FdInv s) (hlive : NodesLive s) (task : TaskId) (fd : Int) :
    (((fdIndex fd).bind fun i => s.fdTable (task, i)) = none ∧
        vfsCloseFd s task fd = some (s, -eBadF)) ∨
      ∃ i s', fdIndex fd = some i ∧ vfsCloseFd s task fd = some (s', 0) ∧
        Closes s (task, i) s' := by
  unfold vfsCloseFd
  cases hi : fdIndex fd with
  | none => exact Or.inl ⟨rfl, rfl⟩
  | some i =>
    dsimp only [Option.bind_some]
    cases hslot : s.fdTable (task, i) with
    | none => exact Or.inl ⟨rfl, rfl⟩
    | some of =>
      right
      obtain ⟨hpos, file, hfile, hcount⟩ := hinv.file_of_slot hslot
      have hpred : pred32 file.refCount = s.refs of - 1 := by
        rw [hcount]
        exact pred32_pos hpos
      dsimp only
      rw [hfile]
      dsimp only [Option.bind_eq_bind, Option.bind_some]
      rw [hpred]
      split_ifs with hzero
      · obtain ⟨node, hnode⟩ := Option.isSome_iff_exists.mp (hlive of file hfile)
        obtain ⟨s', hput, hcase⟩ :=
          putNode_spec (s := s.setSlot (task, i) none) (n := file.node) hnode
        refine ⟨i, s'.setFile of none, rfl, ?_, .last hslot hfile (by omega) hnode hcase⟩
        rw [hput]
        rfl
      · exact ⟨i, _, rfl, rfl, .shared hslot hfile (by omega)⟩

end Close

/-- A property that survives closing descriptors of the tasks `T`, and tells that
no open file or node behind a descriptor is gone. -/
structure CloseStable (T : TaskId → Prop) (P : VfsState → Prop) : Prop where
  inv : ∀ s, P s → FdInv s
  live : ∀ s, P s → NodesLive s
  closes : ∀ s x s', T x.1 → P s → Closes s x s' → P s'
  retire : ∀ s task status, P s → (∀ i, s.fdTable (task, i) = none) →
    P (s.setStatus task status)

namespace CloseStable

variable {T : TaskId → Prop} {P : VfsState → Prop} {s : VfsState} {task : TaskId}

/-- One round of the loop closes its descriptor and opens none. -/
theorem closeSlot (hP : CloseStable T P) (hT : T task) (h : P s) (i : Fd) :
    ∃ s', closeSlot task s i = some s' ∧ P s' ∧ s'.status = s.status ∧
      s'.fdTable (task, i) = none ∧
      ∀ x, s.fdTable x = none → s'.fdTable x = none := by
  unfold EnclaveOS.closeSlot
  by_cases hslot : s.fdTable (task, i) = none
  · rw [if_neg (not_not_intro hslot)]
    exact ⟨s, rfl, h, rfl, hslot, fun _ hx => hx⟩
  · rw [if_pos hslot]
    obtain ⟨hbad, -⟩ | ⟨j, s', hj, hres, hcloses⟩ :=
      vfsCloseFd_spec (hP.inv s h) (hP.live s h) task i
    · rw [fdIndex_coe] at hbad
      exact absurd hbad hslot
    · obtain rfl : i = j := by simpa using hj
      rw [hres]
      refine ⟨s', rfl, hP.closes s _ s' hT h hcloses, hcloses.status, ?_, fun x hx => ?_⟩
      · rw [hcloses.table, Function.update_self]
      · rw [hcloses.table, Function.update_apply]
        split_ifs
        · rfl
        · exact hx

theorem foldlM_closeSlot (hP : CloseStable T P) (hT : T task) (fds : List Fd) :
    ∀ {s : VfsState}, P s → ∃ s', fds.foldlM (EnclaveOS.closeSlot task) s = some s' ∧ P s' ∧
      s'.status = s.status ∧ (∀ i ∈ fds, s'.fdTable (task, i) = none) ∧
      ∀ x, s.fdTable x = none → s'.fdTable x = none := by
  induction fds with
  | nil =>
    intro s h
    exact ⟨s, rfl, h, rfl, by simp, fun _ hx => hx⟩
  | cons i fds ih =>
    intro s h
    obtain ⟨s₁, hs₁, h₁, hstatus₁, hi, hkeep₁⟩ := hP.closeSlot hT h i
    obtain ⟨s₂, hs₂, h₂, hstatus₂, hall, hkeep₂⟩ := ih h₁
    refine ⟨s₂, ?_, h₂, hstatus₂.trans hstatus₁, fun j hj => ?_, fun x hx => hkeep₂ x (hkeep₁ x hx)⟩
    · rw [List.foldlM_cons, hs₁]
      exact hs₂
    · obtain rfl | hj := List.mem_cons.mp hj
      · exact hkeep₂ _ hi
      · exact hall j hj

/-- A dying task closes all its descriptors. -/
theorem closeAll (hP : CloseStable T P) (hT : T task) (h : P s) :
    ∃ s', closeAll s task = some s' ∧ P s' ∧ s'.status = s.status ∧
      (∀ i, s'.fdTable (task, i) = none) ∧ ∀ x, s.fdTable x = none → s'.fdTable x = none := by
  obtain ⟨s', hs', h', hstatus, hall, hkeep⟩ := hP.foldlM_closeSlot hT (List.finRange 256) h
  exact ⟨s', hs', h', hstatus, fun i => hall i (List.mem_finRange i), hkeep⟩

theorem killChild (hP : CloseStable T P) (hT : T task) (h : P s) :
    ∃ s', killChild s task = some s' ∧ P s' ∧ ∀ x, s.fdTable x = none → s'.fdTable x = none := by
  unfold EnclaveOS.killChild
  cases hstatus : s.status task with
  | dead => exact ⟨s, rfl, h, fun _ hx => hx⟩
  | zombie =>
    have hempty := (hP.inv s h).closed task (by simp [hstatus])
    exact ⟨_, rfl, hP.retire s task .dead h hempty, fun _ hx => hx⟩
  | active =>
    obtain ⟨s', hs', h', -, hempty, hkeep⟩ := hP.closeAll hT h
    rw [hs']
    exact ⟨_, rfl, hP.retire s' task .dead h' hempty, hkeep⟩

theorem foldlM_killChild (hP : CloseStable T P) (victims : List TaskId)
    (hT : ∀ v ∈ victims, T v) :
    ∀ {s : VfsState}, P s → ∃ s', victims.foldlM EnclaveOS.killChild s = some s' ∧ P s' ∧
      ∀ x, s.fdTable x = none → s'.fdTable x = none := by
  induction victims with
  | nil =>
    intro s h
    exact ⟨s, rfl, h, fun _ hx => hx⟩
  | cons v victims ih =>
    intro s h
    obtain ⟨s₁, hs₁, h₁, hkeep₁⟩ := hP.killChild (hT v List.mem_cons_self) h
    obtain ⟨s₂, hs₂, h₂, hkeep₂⟩ := ih (fun w hw => hT w (List.mem_cons_of_mem v hw)) h₁
    refine ⟨s₂, ?_, h₂, fun x hx => hkeep₂ x (hkeep₁ x hx)⟩
    rw [List.foldlM_cons, hs₁]
    exact hs₂

/-- A task exits or is killed, with the descendants that the cascade takes along. -/
theorem taskExit (hP : CloseStable T P) (hT : T task) {victims : List TaskId}
    (hvictims : ∀ v ∈ victims, T v) (h : P s) (isInit : Bool) :
    ∃ s', taskExit s task victims isInit = some s' ∧ P s' := by
  obtain ⟨s₁, hs₁, h₁, -, hempty, -⟩ := hP.closeAll hT h
  obtain ⟨s₂, hs₂, h₂, hkeep⟩ := hP.foldlM_killChild victims hvictims h₁
  refine ⟨s₂.setStatus task (if isInit then .dead else .zombie), ?_, ?_⟩
  · unfold EnclaveOS.taskExit
    rw [hs₁, Option.bind_eq_bind, Option.bind_some, hs₂]
    rfl
  · exact hP.retire s₂ task _ h₂ fun i => hkeep _ (hempty i)

end CloseStable

/-- The free descriptor `x` takes an open file that another descriptor has. -/
inductive Shares (s : VfsState) (x : TaskId × Fd) : VfsState → Prop
  | intro {of : Ptr} {file : OpenFile} {node : VfsNode} (hfree : s.fdTable x = none)
      (hactive : s.status x.1 = .active) (hfile : s.files of = some file)
      (hnode : s.nodes file.node = some node) :
      Shares s x (((s.setFile of (some { file with refCount := succ32 file.refCount })).setNode
        file.node (some { node with refCount := succ32 node.refCount })).setSlot x (some of))

theorem freeFd_eq_some {s : VfsState} {task : TaskId} {i : Fd} (h : s.freeFd task = some i) :
    s.fdTable (task, i) = none := by
  unfold VfsState.freeFd at h
  simpa using List.find?_some h

section Share

variable {s s' : VfsState} {x : TaskId × Fd} {task : TaskId}

namespace Shares

theorem status (h : Shares s x s') : s'.status = s.status := by
  cases h
  rfl

theorem table_of_ne (h : Shares s x s') {y : TaskId × Fd} (hy : y ≠ x) :
    s'.fdTable y = s.fdTable y := by
  cases h
  exact Function.update_of_ne hy _ _

theorem fdInv (h : Shares s x s') (hinv : FdInv s) : FdInv s' := by
  cases h with
  | @intro of file node hfree hactive hfile hnode =>
    refine hinv.take hfree hactive rfl rfl (fun a ha => Function.update_of_ne ha _ _)
      (Function.update_self _ _ _) ?_
    dsimp only
    rw [hinv.counted of file hfile]
    exact succ32_eq (s.refs_le of)

end Shares

/-- An open file behind a descriptor can be shared with a free one. -/
theorem shareFile_spec (hinv : FdInv s) (hlive : NodesLive s) {y : TaskId × Fd} {of : Ptr}
    (hslot : s.fdTable y = some of) (hfree : s.fdTable x = none)
    (hactive : s.status x.1 = .active) :
    ∃ s₁, s.shareFile of = some s₁ ∧ Shares s x (s₁.setSlot x (some of)) := by
  obtain ⟨-, file, hfile, -⟩ := hinv.file_of_slot hslot
  obtain ⟨node, hnode⟩ := Option.isSome_iff_exists.mp (hlive of file hfile)
  refine ⟨_, ?_, .intro hfree hactive hfile hnode⟩
  unfold VfsState.shareFile VfsState.incNode
  rw [hfile, Option.bind_eq_bind, Option.bind_some, VfsState.setFile_nodes, hnode]
  rfl

/-- `dup` is rejected, or a free descriptor takes the open file. -/
theorem sysDup_spec (hinv : FdInv s) (hlive : NodesLive s) (hactive : s.status task = .active)
    (oldFd : Int) :
    ((((fdIndex oldFd).bind fun i => s.fdTable (task, i)) = none ∨ s.freeFd task = none) ∧
        ∃ r, sysDup s task oldFd = some (s, r)) ∨
      ((fdIndex oldFd).bind fun i => s.fdTable (task, i)) ≠ none ∧ s.freeFd task ≠ none ∧
        ∃ j s' r, sysDup s task oldFd = some (s', r) ∧ Shares s (task, j) s' := by
  unfold sysDup
  cases hold : (fdIndex oldFd).bind fun i => s.fdTable (task, i) with
  | none => exact Or.inl ⟨Or.inl rfl, _, rfl⟩
  | some of =>
    dsimp only
    cases hj : s.freeFd task with
    | none => exact Or.inl ⟨Or.inr rfl, _, rfl⟩
    | some j =>
      right
      obtain ⟨i, -, hslot⟩ := Option.bind_eq_some_iff.mp hold
      obtain ⟨s₁, hs₁, hshares⟩ :=
        shareFile_spec (x := (task, j)) hinv hlive hslot (freeFd_eq_some hj) hactive
      dsimp only
      rw [hs₁]
      exact ⟨by simp, by simp, j, _, _, rfl, hshares⟩

/-- `dup2` is rejected or has nothing to do, or it closes the new descriptor
when that is open and lets it take the open file. -/
theorem sysDup2_spec {P : VfsState → Prop} (hinv : ∀ s, P s → FdInv s)
    (hlive : ∀ s, P s → NodesLive s) (h : P s) (hactive : s.status task = .active)
    (oldFd newFd : Int) (hcloses : ∀ j s', fdIndex newFd = some j → fdIndex oldFd ≠ fdIndex newFd →
      ((fdIndex oldFd).bind fun i => s.fdTable (task, i)) ≠ none → Closes s (task, j) s' → P s') :
    ((((fdIndex oldFd).bind fun i => s.fdTable (task, i)) = none ∨ fdIndex newFd = none ∨
        fdIndex oldFd = fdIndex newFd) ∧ ∃ r, sysDup2 s task oldFd newFd = some (s, r)) ∨
      ((fdIndex oldFd).bind fun i => s.fdTable (task, i)) ≠ none ∧ fdIndex oldFd ≠ fdIndex newFd ∧
        ∃ j s₁ s' r, fdIndex newFd = some j ∧ sysDup2 s task oldFd newFd = some (s', r) ∧ P s₁ ∧
          (s₁ = s ∨ Closes s (task, j) s₁) ∧ Shares s₁ (task, j) s' := by
  unfold sysDup2
  cases hi : fdIndex oldFd with
  | none => exact Or.inl ⟨Or.inl rfl, _, rfl⟩
  | some i =>
    cases hj : fdIndex newFd with
    | none => exact Or.inl ⟨Or.inr (Or.inl rfl), _, rfl⟩
    | some j =>
      dsimp only [Option.bind_some]
      cases hslot : s.fdTable (task, i) with
      | none => exact Or.inl ⟨Or.inl rfl, _, rfl⟩
      | some of =>
        dsimp only
        by_cases hij : i = j
        · rw [if_pos hij]
          exact Or.inl ⟨Or.inr (Or.inr (by rw [hij])), _, rfl⟩
        rw [if_neg hij]
        right
        refine ⟨by simp, by simpa using hij, ?_⟩
        have hne : (task, i) ≠ (task, j) := fun heq => hij (Prod.ext_iff.mp heq).2
        by_cases hopen : s.fdTable (task, j) = none
        · rw [if_neg (not_not_intro hopen)]
          obtain ⟨s₂, hs₂, hshares⟩ :=
            shareFile_spec (x := (task, j)) (hinv s h) (hlive s h) hslot hopen hactive
          rw [Option.bind_eq_bind, Option.bind_some, hs₂]
          exact ⟨j, s, _, _, rfl, rfl, h, Or.inl rfl, hshares⟩
        · rw [if_pos hopen]
          obtain ⟨hbad, -⟩ | ⟨k, s₁, hk, hres, hclosed⟩ :=
            vfsCloseFd_spec (hinv s h) (hlive s h) task newFd
          · rw [hj] at hbad
            exact absurd hbad hopen
          rw [hj] at hk
          obtain rfl : j = k := by simpa using hk
          have h₁ : P s₁ := hcloses j s₁ hj (by simpa [hi, hj] using hij) (by simp [hi, hslot]) hclosed
          have hslot₁ : s₁.fdTable (task, i) = some of := by
            rw [hclosed.table, Function.update_of_ne hne]
            exact hslot
          have hfree₁ : s₁.fdTable (task, j) = none := by
            rw [hclosed.table, Function.update_self]
          obtain ⟨s₂, hs₂, hshares⟩ :=
            shareFile_spec (x := (task, j)) (hinv s₁ h₁) (hlive s₁ h₁) hslot₁ hfree₁
              (hclosed.status ▸ hactive)
          rw [hres]
          dsimp only [Option.map_some, Option.bind_eq_bind, Option.bind_some]
          rw [hs₂]
          exact ⟨j, s₁, _, _, rfl, rfl, h₁, Or.inr hclosed, hshares⟩

/-- The inheritance loop shares every open descriptor of the parent. -/
theorem foldlM_inheritFd {P : VfsState → Prop} (parent child : TaskId)
    (hinv : ∀ s, P s → FdInv s) (hlive : ∀ s, P s → NodesLive s)
    (hshares : ∀ s i s', P s → Shares s (child, i) s' → s.fdTable (parent, i) ≠ none → P s')
    (fds : List Fd) (hnodup : fds.Nodup) :
    ∀ {s : VfsState}, P s → s.status child = .active →
      (∀ i ∈ fds, s.fdTable (child, i) = none) →
      ∃ s', fds.foldlM (inheritFd parent child) s = some s' ∧ P s' := by
  induction fds with
  | nil =>
    intro s h _ _
    exact ⟨s, rfl, h⟩
  | cons i fds ih =>
    intro s h hactive hfree
    rw [List.nodup_cons] at hnodup
    have hi := hfree i List.mem_cons_self
    rw [List.foldlM_cons]
    unfold inheritFd
    cases hslot : s.fdTable (parent, i) with
    | none =>
      have hsame : s.setSlot (child, i) none = s := by
        unfold VfsState.setSlot
        rw [← hi, Function.update_eq_self]
      dsimp only
      rw [hsame, Option.bind_eq_bind, Option.bind_some]
      exact ih hnodup.2 h hactive fun j hj => hfree j (List.mem_cons_of_mem i hj)
    | some of =>
      obtain ⟨s₁, hs₁, hshare⟩ :=
        shareFile_spec (x := (child, i)) (hinv s h) (hlive s h) hslot hi hactive
      dsimp only
      rw [hs₁, Option.bind_eq_bind, Option.bind_some, Option.bind_some]
      refine ih hnodup.2 (hshares s i _ h hshare (by simp [hslot])) (hshare.status ▸ hactive)
        fun j hj => ?_
      have hji : (child, j) ≠ (child, i) := fun heq => by
        obtain rfl : j = i := (Prod.ext_iff.mp heq).2
        exact hnodup.1 hj
      rw [hshare.table_of_ne hji]
      exact hfree j (List.mem_cons_of_mem i hj)

/-- The table of a new task is empty, and nothing else changes but its state. -/
theorem newTask_eq (hinv : FdInv s) (hdead : s.status task = .dead) :
    newTask s task = s.setStatus task .active := by
  have htable : (fun x => if x.1 = task then none else s.fdTable x) = s.fdTable := by
    funext x
    split_ifs with hx
    · obtain ⟨t, i⟩ := x
      obtain rfl : t = task := hx
      exact (hinv.closed t (by simp [hdead]) i).symm
    · rfl
  unfold newTask
  rw [htable]
  rfl

theorem sysExec_eq : sysExec s task = s := by
  have htable : (fun x => if x.1 = task then s.fdTable (task, x.2) else s.fdTable x) =
      s.fdTable := by
    funext x
    split_ifs with hx
    · rw [← hx]
    · rfl
  unfold sysExec
  dsimp only
  rw [htable]

end Share

/-- What opening a file does not change of a node. -/
def VfsNode.fixed (node : VfsNode) : VfsNode := { node with size := 0 }

/-- The same objects, up to the contents and sizes of tmpfs files and the count of
the console driver. -/
structure SameObjects (s s' : VfsState) : Prop where
  status : s'.status = s.status
  table : s'.fdTable = s.fdTable
  files : s'.files = s.files
  nodes : ∀ n, (s'.nodes n).map VfsNode.fixed = (s.nodes n).map VfsNode.fixed
  data : ∀ p, (s'.fileData p).isSome = (s.fileData p).isSome

namespace SameObjects

variable {s s' s'' : VfsState}

theorem refl (s : VfsState) : SameObjects s s :=
  ⟨rfl, rfl, rfl, fun _ => rfl, fun _ => rfl⟩

/-- A node and its counterpart. -/
theorem node (h : SameObjects s s') {n : Ptr} {node' : VfsNode} (hnode' : s'.nodes n = some node') :
    ∃ node, s.nodes n = some node ∧ node'.fixed = node.fixed := by
  have hn := h.nodes n
  rw [hnode'] at hn
  cases hnode : s.nodes n with
  | none => simp [hnode] at hn
  | some node => exact ⟨node, rfl, by simpa [hnode] using hn⟩

theorem nodesLive (h : SameObjects s s') (hlive : NodesLive s) : NodesLive s' := by
  intro of file hfile
  have hold := hlive of file (h.files ▸ hfile)
  rw [← Option.isSome_map (f := VfsNode.fixed)] at hold ⊢
  rwa [h.nodes]

end SameObjects

theorem VfsNode.fixed_eq {node node' : VfsNode} (h : node'.fixed = node.fixed) :
    node'.flags = node.flags ∧ node'.driver = node.driver ∧
      node'.privateData = node.privateData ∧ node'.refCount = node.refCount ∧
      node'.isUnlinked = node.isUnlinked := by
  simp only [VfsNode.fixed, VfsNode.mk.injEq] at h
  exact ⟨h.2.1, h.2.2.1, h.2.2.2.1, h.2.2.2.2.1, h.2.2.2.2.2⟩

theorem pred32_succ32 (n : Nat) : pred32 (succ32 n) = n := by
  unfold pred32 succ32
  by_cases hmax : n = 0xFFFFFFFF
  · rw [if_pos hmax, if_pos rfl, hmax]
  · rw [if_neg hmax, if_neg (Nat.succ_ne_zero n), Nat.add_sub_cancel]

/-- What `sys_open` does on a node that it refuses, on one where an allocation
or the table fails after the driver was called, and on one that it opens. -/
inductive Opens (s : VfsState) (task : TaskId) (n : Ptr) (alloc : Option Ptr) :
    VfsState → Prop
  | refused : Opens s task n alloc s
  | failed {s' : VfsState} {node : VfsNode} (hnode : s.nodes n = some node)
      (hlack : alloc = none ∨ s.freeFd task = none)
      (hsame : SameObjects s s') (hfree : node.driver = .console → s.consoleOpenCount = 0)
      (hcount : s'.consoleOpenCount =
        s.consoleOpenCount + if node.driver = .console then 1 else 0) :
      Opens s task n alloc s'
  | opened {s₁ : VfsState} {node node₁ : VfsNode} {of : Ptr} {i : Fd} {file : OpenFile}
      (hnode : s.nodes n = some node) (halloc : alloc = some of)
      (hslot : s.fdTable (task, i) = none)
      (hsame : SameObjects s s₁) (hfree : node.driver = .console → s.consoleOpenCount = 0)
      (hcount : s₁.consoleOpenCount =
        s.consoleOpenCount + if node.driver = .console then 1 else 0)
      (hnode₁ : s₁.nodes n = some node₁) (hfile : file.node = n ∧ file.refCount = 1) :
      Opens s task n alloc (((s₁.setNode n (some { node₁ with
        refCount := succ32 node₁.refCount })).setFile of (some file)).setSlot (task, i) (some of))

/-- The driver's callback changes no object but the size and contents of the node's file. -/
theorem openCallback_same {s : VfsState} {n : Ptr} {node : VfsNode} (flags : Nat)
    (hnode : s.nodes n = some node) : SameObjects s (s.openCallback n node flags).1 := by
  unfold VfsState.openCallback
  cases node.driver with
  | other => exact .refl s
  | console =>
    dsimp only [VfsState.devfsConsoleOpen]
    split_ifs
    · exact .refl s
    · exact ⟨rfl, rfl, rfl, fun _ => rfl, fun _ => rfl⟩
  | tmpfs =>
    dsimp only [VfsState.tmpfsOpenNode]
    cases hpriv : node.privateData with
    | none => exact .refl s
    | some p =>
      refine ⟨rfl, rfl, rfl, fun m => ?_, fun q => ?_⟩
      · dsimp only [VfsState.setNode]
        rw [Function.update_apply]
        split_ifs with hm
        · rw [hm, hnode]
          simp [VfsNode.fixed, hpriv]
        · rfl
      · dsimp only
        rw [Function.update_apply]
        split_ifs with hq
        · rw [hq]
          unfold tmpfsOpen
          split_ifs
          · cases s.fileData p <;> rfl
          · rfl
        · rfl

/-- The driver accepts, or it is the busy console. -/
theorem openCallback_spec (s : VfsState) (n : Ptr) (node : VfsNode) (flags : Nat) :
    ((s.openCallback n node flags).2 = 0 ∧ (node.driver = .console → s.consoleOpenCount = 0) ∧
        (s.openCallback n node flags).1.consoleOpenCount =
          s.consoleOpenCount + if node.driver = .console then 1 else 0) ∨
      ((s.openCallback n node flags).2 ≠ 0 ∧ (s.openCallback n node flags).1 = s) := by
  unfold VfsState.openCallback
  cases node.driver with
  | other => exact Or.inl ⟨rfl, by simp, rfl⟩
  | console =>
    dsimp only [VfsState.devfsConsoleOpen]
    by_cases hbusy : 0 < s.consoleOpenCount
    · rw [if_pos hbusy]
      exact Or.inr ⟨by simp, rfl⟩
    · rw [if_neg hbusy]
      exact Or.inl ⟨rfl, fun _ => by omega, rfl⟩
  | tmpfs =>
    refine Or.inl ⟨rfl, by simp, ?_⟩
    dsimp only [VfsState.tmpfsOpenNode]
    cases node.privateData <;> rfl

/-- Taking and dropping a reference of a node changes nothing. -/
theorem incNode_decNode {s : VfsState} {n : Ptr} {node : VfsNode} (hnode : s.nodes n = some node) :
    s.incNode n = some (s.setNode n (some { node with refCount := succ32 node.refCount })) ∧
      (s.setNode n (some { node with refCount := succ32 node.refCount })).decNode n = some s := by
  constructor
  · unfold VfsState.incNode
    rw [hnode]
    rfl
  · unfold VfsState.decNode
    rw [VfsState.setNode_nodes, Function.update_self]
    dsimp only [Option.bind_eq_bind, Option.bind_some, VfsState.setNode]
    rw [pred32_succ32, Function.update_idem, ← hnode, Function.update_eq_self]

/-- The state in which an open file and a descriptor point to a node. -/
def VfsState.opened (s : VfsState) (task : TaskId) (i : Fd) (n : Ptr) (node : VfsNode)
    (flags : Nat) (of : Ptr) : VfsState :=
  ((s.setNode n (some { node with refCount := succ32 node.refCount })).setFile of
    (some ⟨n, 0, flags, 1⟩)).setSlot (task, i) (some of)

/-- The end of `sys_open`: the node is refused, the callback refuses, memory or descriptors
run out after the callback, or the descriptor is made. -/
theorem openNode_eq {s : VfsState} {n : Ptr} {node : VfsNode} (task : TaskId) (flags : Nat)
    (alloc : Option Ptr) (hnode : s.nodes n = some node) :
    ∃ node', (s.openCallback n node flags).1.nodes n = some node' ∧
      openNode s task n flags alloc =
        if node.flags &&& fsSystem ≠ 0 ∧ node.flags &&& fsDirectory = 0 then
          some (s, -vfsEAcces)
        else if (s.openCallback n node flags).2 ≠ 0 then
          some ((s.openCallback n node flags).1, -vfsEAcces)
        else
          match alloc, s.freeFd task with
          | some of, some i =>
            some ((s.openCallback n node flags).1.opened task i n node' flags of, i)
          | _, _ => some ((s.openCallback n node flags).1, -vfsENoMem) := by
  have hsame := openCallback_same flags hnode
  generalize hcall : s.openCallback n node flags = called at hsame ⊢
  obtain ⟨s₁, result⟩ := called
  have hlive : (s₁.nodes n).isSome := by
    rw [← Option.isSome_map (f := VfsNode.fixed), hsame.nodes, hnode]
    rfl
  obtain ⟨node', hnode'⟩ := Option.isSome_iff_exists.mp hlive
  obtain ⟨hinc, hdec⟩ := incNode_decNode hnode'
  have hfd : (s₁.setNode n (some { node' with refCount := succ32 node'.refCount })).freeFd task =
      s.freeFd task := by
    unfold VfsState.freeFd VfsState.setNode
    rw [hsame.table]
  refine ⟨node', hnode', ?_⟩
  unfold openNode
  rw [hnode, Option.bind_eq_bind, Option.bind_some, hcall]
  dsimp only
  split_ifs
  · rfl
  · rfl
  · rw [hinc, Option.bind_eq_bind, Option.bind_some]
    cases alloc with
    | none =>
      dsimp only
      rw [hdec]
      rfl
    | some of =>
      dsimp only
      rw [hfd]
      cases s.freeFd task with
      | none =>
        dsimp only
        rw [hdec]
        rfl
      | some i => rfl

theorem openNode_spec {s : VfsState} {n : Ptr} {node : VfsNode} (task : TaskId) (flags : Nat)
    (alloc : Option Ptr) (hnode : s.nodes n = some node) :
    ∃ s' r, openNode s task n flags alloc = some (s', r) ∧ Opens s task n alloc s' := by
  obtain ⟨node', hnode', hopen⟩ := openNode_eq task flags alloc hnode
  have hsame := openCallback_same flags hnode
  rw [hopen]
  split_ifs with hsys hbad
  · exact ⟨s, _, rfl, .refused⟩
  · obtain ⟨hok, -⟩ | ⟨-, hsame⟩ := openCallback_spec s n node flags
    · exact absurd hok hbad
    · rw [hsame]
      exact ⟨s, _, rfl, .refused⟩
  · obtain ⟨-, hfree, hcount⟩ | ⟨hne, -⟩ := openCallback_spec s n node flags
    · cases alloc with
      | none => exact ⟨_, _, rfl, .failed hnode (Or.inl rfl) hsame hfree hcount⟩
      | some of =>
        cases hi : s.freeFd task with
        | none => exact ⟨_, _, rfl, .failed hnode (Or.inr hi) hsame hfree hcount⟩
        | some i =>
          exact ⟨_, _, rfl, .opened hnode rfl (freeFd_eq_some hi) hsame hfree hcount hnode'
            ⟨rfl, rfl⟩⟩
    · exact absurd hne hbad

/-- A lookup fails, or it finds or makes the node that is opened. -/
theorem sysOpen_spec {s : VfsState} {lookup : Lookup} (task : TaskId) (flags : Nat)
    (alloc : Option Ptr) (hlookup : lookup.Possible s) :
    (∃ r, sysOpen s task lookup flags alloc = some (s, r)) ∨
    (∃ n s' r, lookup = .found n ∧ sysOpen s task lookup flags alloc = some (s', r) ∧
      Opens s task n alloc s') ∨
    ∃ n size nodeFlags driver privateData s' r, s.Makes n driver privateData ∧
      sysOpen s task lookup flags alloc = some (s', r) ∧
      Opens (s.addNode n size nodeFlags driver privateData) task n alloc s' := by
  cases lookup with
  | failed errno => exact Or.inl ⟨_, rfl⟩
  | found n =>
    obtain ⟨node, hnode, -⟩ := hlookup
    obtain ⟨s', r, hres, hopens⟩ := openNode_spec task flags alloc hnode
    exact Or.inr (Or.inl ⟨n, s', r, rfl, hres, hopens⟩)
  | made n size nodeFlags driver privateData =>
    have hnode : (s.addNode n size nodeFlags driver privateData).nodes n =
        some ⟨size, nodeFlags, driver, privateData, 0, false⟩ := Function.update_self _ _ _
    obtain ⟨s', r, hres, hopens⟩ := openNode_spec task flags alloc hnode
    exact Or.inr (Or.inr ⟨n, _, _, _, _, s', r, hlookup, hres, hopens⟩)

/-- Opening a node changes no object, or it makes an open file with its first descriptor. -/
theorem Opens.installs {s s' : VfsState} {task : TaskId} {n : Ptr} {alloc : Option Ptr}
    (hfd : FdInv s) (hlive : NodesLive s) (hactive : s.status task = .active)
    (hfresh : ∀ of, alloc = some of → s.files of = none) (hopens : Opens s task n alloc s') :
    SameObjects s s' ∨ ∃ s₁ node₁ of i file, SameObjects s s₁ ∧ s₁.files of = none ∧
      s₁.nodes n = some node₁ ∧ file.node = n ∧
      s' = ((s₁.setNode n (some { node₁ with refCount := succ32 node₁.refCount })).setFile of
        (some file)).setSlot (task, i) (some of) ∧
      FdInv s' ∧ ∀ a fa, s'.files a = some fa → (s₁.nodes fa.node).isSome := by
  cases hopens with
  | refused => exact Or.inl (.refl s)
  | failed _ _ hsame => exact Or.inl hsame
  | @opened s₁ node node₁ of i file hnode halloc hslot hsame hfree hcount hnode₁ hfile =>
    have hfd₁ := hfd.congr hsame.status hsame.table hsame.files
    have hnone : s₁.files of = none := by
      rw [hsame.files]
      exact hfresh of halloc
    have hrefs : s₁.refs of = 0 := by
      have hof := hfd₁.live of
      rw [hnone] at hof
      simpa using hof
    refine Or.inr ⟨s₁, node₁, of, i, file, hsame, hnone, hnode₁, hfile.1, rfl, ?_,
      fun a fa hfa => ?_⟩
    · refine hfd₁.take (x := (task, i)) ?_ ?_ rfl rfl (fun a ha => Function.update_of_ne ha _ _)
        (Function.update_self _ _ _) (by rw [hfile.2, hrefs])
      · rw [hsame.table]
        exact hslot
      · rw [hsame.status]
        exact hactive
    · dsimp only [VfsState.setSlot, VfsState.setNode, VfsState.setFile] at hfa
      rw [Function.update_apply] at hfa
      split_ifs at hfa
      · cases hfa
        rw [hfile.1, hnode₁]
        rfl
      · exact hsame.nodesLive hlive a fa hfa

end EnclaveOS
