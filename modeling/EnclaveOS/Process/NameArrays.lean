import EnclaveOS.Foundation.Run
import EnclaveOS.Fs.FatListing

/-!
# NameArrays - the names that the kernel stores

The arrays `name` of `task_t`, `vfs_node_t` and `dirent_t`, and
`final_name` of `fat32_finddir`, with the copies into them.  Only the names of tasks and
nodes are kept, and the arrays that were filled for a listing or a lookup.
-/

namespace EnclaveOS

open ByteMemory

def taskNameSize : Nat := 32
def nodeNameSize : Nat := 256

/-- A NUL within the first `n` bytes. -/
def HoldsNul (n : Nat) (name : Bytes) : Prop := ∃ i < n, name i = 0#8

/-- What `k_memset` leaves. -/
def zeroed : Bytes := fun _ => 0#8

/-- The bytes behind a pointer to a string. -/
def stringBytes (str : List (BitVec 8)) : Bytes := fun i => str.getD i 0#8

/-- `while (name[i] && i < limit)`, and the NUL behind it. -/
def copyName (limit : Nat) : List (BitVec 8) → Nat → Bytes → Bytes
  | [], i, dest => Function.update dest i 0#8
  | c :: rest, i, dest =>
    if i < limit then copyName limit rest (i + 1) (Function.update dest i c)
    else Function.update dest i 0#8

theorem copyName_holdsNul {limit i : Nat} (h : i ≤ limit) (str : List (BitVec 8)) (dest : Bytes) :
    HoldsNul (limit + 1) (copyName limit str i dest) := by
  induction str generalizing i dest with
  | nil => exact ⟨i, by omega, Function.update_self ..⟩
  | cons c rest ih =>
    rw [copyName]
    split_ifs with hi
    · exact ih hi _
    · exact ⟨i, by omega, Function.update_self ..⟩

/-- A source with a NUL in reach. -/
theorem kStrncpy_holdsNul {src : Bytes} {n size : Nat} (h : HoldsNul n src) (hn : n ≤ size)
    (dest : Bytes) : HoldsNul size (kStrncpy dest src n) := by
  obtain ⟨i, hi, hnul⟩ := h
  refine ⟨i, by omega, ?_⟩
  rw [kStrncpy, if_pos hi, if_neg (fun hall => hall i le_rfl hnul)]
  rfl

theorem kStrncpy_keepsNul {dest : Bytes} {n size : Nat} (h : dest n = 0#8) (hn : n < size)
    (src : Bytes) : HoldsNul size (kStrncpy dest src n) :=
  ⟨n, hn, by rw [kStrncpy, if_neg (Nat.lt_irrefl n), h]⟩

theorem stringBytes_holdsNul {str : List (BitVec 8)} {n : Nat} (h : str.length < n) :
    HoldsNul n (stringBytes str) :=
  ⟨str.length, h, List.getD_eq_default _ _ le_rfl⟩

/-- `tasking_init` and `task_create`. -/
def taskCreateName (name : List (BitVec 8)) : Bytes := copyName (taskNameSize - 1) name 0 zeroed

/-- `sys_exec_handler`, over the name that the task had. -/
def execName (old : Bytes) (filename : List (BitVec 8)) : Bytes :=
  kStrncpy old (stringBytes filename) taskNameSize

/-- `task_fork`, from the name of the parent. -/
def forkName (parent : Bytes) : Bytes := kStrncpy zeroed parent taskNameSize

/-- `vfs_create_node`. -/
def vfsCreateNodeName (name : List (BitVec 8)) : Bytes := copyName (nodeNameSize - 1) name 0 zeroed

/-- `tmpfs_create`. -/
def tmpfsCreateName (name : List (BitVec 8)) : Bytes :=
  kStrncpy zeroed (stringBytes name) (nodeNameSize - 1)

/-- `file_name` of `sys_open`, for what stands behind the last slash. -/
def openFileName (stack : Bytes) (rest : List (BitVec 8)) : Bytes :=
  Function.update (kStrncpy stack (stringBytes rest) 255) 255 0#8

/-- `vfs_generic_readdir`, for the name of the child. -/
def genericReaddirName (child : Bytes) : Bytes := copyName 255 (nameIn child) 0 zeroed

/-- `final_name` of `fat32_finddir`. -/
def finalName (stack : Bytes) (s : LfnState) (dir : DirEntry) : Bytes :=
  if s.active ∧ lfnChecksum dir = s.expectedChecksum ∧ s.buffer 0 ≠ 0 then
    kStrncpy stack s.buffer 255
  else storeBytes stack 0 (shortName dir ++ [0])

/-- An entry with a name of its own. -/
def DirEntry.IsNamed (dir : DirEntry) : Prop :=
  dir 0 ≠ fat32EntryEnd ∧ dir 0 ≠ fat32EntryDeleted ∧ dir.attr ≠ fat32AttrLfn ∧
    dir.attr &&& fat32AttrVolumeId = 0

instance (dir : DirEntry) : Decidable dir.IsNamed := inferInstanceAs (Decidable (_ ∧ _))

/-- The names of the tasks and nodes, and the arrays filled so far. -/
structure NameArrays where
  tasks : Nat → Option Bytes
  nodes : List Bytes
  filled : List Bytes

/-- After `tasking_init` and `vfs_init`. -/
def NameArrays.boot : NameArrays where
  tasks := Function.update (fun _ => none) 0 (some (taskCreateName ("main".toList.map fun c => BitVec.ofNat 8 c.toNat)))
  nodes := [storeBytes zeroed 0 [0x2F, 0]]
  filled := []

/-- The calls that store a name, with what they find on the stack.  `fatReaddir` reads the
entries of its directory, and `fatFinddir` has come over some of them to the next one. -/
inductive NameOp
  | exec (task : Nat) (filename : List (BitVec 8))
  | fork (parent child : Nat)
  | taskCreate (task : Nat) (name : List (BitVec 8))
  | reap (task : Nat)
  | createNode (name : List (BitVec 8))
  | openCreate (stack : Bytes) (rest : List (BitVec 8))
  | mkdir (name : List (BitVec 8))
  | readdir (child : Bytes)
  | fatReaddir (index : Nat) (entries : List DirEntry)
  | fatFinddir (fs : Fat32Volume) (name : List (BitVec 8)) (stack : Bytes × Bytes)
    (before : List DirEntry) (dir : DirEntry)

/-- The long name with which `fat32_finddir` comes to the next entry. -/
def finddirState (fs : Fat32Volume) (name : List (BitVec 8)) (stack : Bytes × Bytes)
    (before : List DirEntry) : Option LfnState :=
  match scanList (finddirEntry fs name stack.2) before (.start stack.1) with
  | .next s => some s
  | _ => none

/-- The entry that `fat32_readdir` fills. -/
def readdirResult (index : Nat) (entries : List DirEntry) : Option FatDirent :=
  match scanList (readdirEntry index ⟨0, zeroed⟩) entries ⟨0, .start zeroed⟩ with
  | .done entry => entry
  | _ => none

namespace NameArrays

def step (s : NameArrays) : NameOp → Option NameArrays
  | .exec task filename => (s.tasks task).map fun old =>
    { s with tasks := Function.update s.tasks task (some (execName old filename)) }
  | .fork parent child => (s.tasks parent).map fun name =>
    { s with tasks := Function.update s.tasks child (some (forkName name)) }
  | .taskCreate task name =>
    some { s with tasks := Function.update s.tasks task (some (taskCreateName name)) }
  | .reap task => some { s with tasks := Function.update s.tasks task none }
  | .createNode name => some { s with nodes := vfsCreateNodeName name :: s.nodes }
  | .openCreate stack rest =>
    some { s with nodes := tmpfsCreateName (nameIn (openFileName stack rest)) :: s.nodes }
  | .mkdir name => some { s with nodes := tmpfsCreateName name :: s.nodes }
  | .readdir child => some { s with filled := genericReaddirName child :: s.filled }
  | .fatReaddir index entries => (readdirResult index entries).map fun entry =>
    { s with filled := entry.name :: s.filled }
  | .fatFinddir fs name stack before dir =>
    (finddirState fs name stack before).bind fun lfn =>
      if dir.IsNamed then
        let final := finalName stack.2 lfn dir
        some { s with
          filled := final :: s.filled
          nodes := if nameIn final = name then vfsCreateNodeName (nameIn final) :: s.nodes
            else s.nodes }
      else none

/-- Every array holds a NUL within its size. -/
structure Terminated (s : NameArrays) : Prop where
  tasks : ∀ task name, s.tasks task = some name → HoldsNul taskNameSize name
  nodes : ∀ name ∈ s.nodes, HoldsNul nodeNameSize name
  filled : ∀ name ∈ s.filled, HoldsNul nodeNameSize name

end NameArrays

/-- `fat32_finddir` takes the long name. -/
def TakesLong (s : LfnState) (dir : DirEntry) : Prop :=
  s.active ∧ lfnChecksum dir = s.expectedChecksum ∧ s.buffer 0 ≠ 0

/-- A path for `exec` that fits into the name of a task, and a lookup that takes no long name
of 255 bytes over a stack without a NUL behind it. -/
def NameOp.Short : NameOp → Prop
  | .exec _ filename => filename.length < taskNameSize
  | .fatFinddir fs name stack before dir => ∀ s, finddirState fs name stack before = some s →
      TakesLong s dir → HoldsNul 255 s.buffer ∨ stack.2 255 = 0#8
  | _ => True

theorem storeBytes_holdsNul {str : List (BitVec 8)} {n : Nat} (h : str.length < n) (mem : Bytes) :
    HoldsNul n (storeBytes mem 0 (str ++ [0#8])) := by
  refine ⟨str.length, h, ?_⟩
  rw [storeBytes_append, storeBytes, storeBytes, Nat.zero_add, Function.update_self]

theorem shortName_holdsNul (stack : Bytes) (dir : DirEntry) :
    HoldsNul nodeNameSize (storeBytes stack 0 (shortName dir ++ [0#8])) :=
  storeBytes_holdsNul (Nat.lt_of_le_of_lt (length_shortName dir) (by decide)) stack

theorem finalName_holdsNul {s : LfnState} {stack : Bytes} {dir : DirEntry}
    (h : TakesLong s dir → HoldsNul 255 s.buffer ∨ stack 255 = 0#8) :
    HoldsNul nodeNameSize (finalName stack s dir) := by
  unfold finalName
  split_ifs with hlong
  · rcases h hlong with hbuffer | hstack
    · exact kStrncpy_holdsNul hbuffer (by decide) stack
    · exact kStrncpy_keepsNul hstack (by decide) s.buffer
  · exact shortName_holdsNul stack dir

/-- A listing starts from a cleared entry. -/
theorem readdirResult_holdsNul {index : Nat} {entries : List DirEntry} {entry : FatDirent}
    (h : readdirResult index entries = some entry) : HoldsNul nodeNameSize entry.name := by
  unfold readdirResult at h
  cases hscan : scanList (readdirEntry index ⟨0, zeroed⟩) entries ⟨0, .start zeroed⟩ with
  | next s => simp [hscan] at h
  | overrun => simp [hscan] at h
  | done result =>
    have hresult : result = some entry := by simpa [hscan] using h
    obtain ⟨dir, -, s, hdone⟩ := exists_of_scanList_done hscan
    subst hresult
    unfold readdirEntry at hdone
    dsimp only at hdone
    by_cases hlfn : dir.attr = fat32AttrLfn
    · cases hentry : lfnEntry dir s.lfn <;> simp [hlfn, hentry] at hdone <;> split_ifs at hdone <;>
        cases hdone
    rw [if_neg hlfn] at hdone
    split_ifs at hdone with hend hdeleted hvolume hindex hlong
    · cases hdone
    · cases hdone
      exact @kStrncpy_keepsNul zeroed 255 nodeNameSize rfl (by decide) s.lfn.buffer
    · cases hdone
      exact shortName_holdsNul zeroed dir

namespace NameArrays

variable {s s' : NameArrays}

theorem Terminated.setTask (h : s.Terminated) {task : Nat} {name : Bytes}
    (hname : HoldsNul taskNameSize name) :
    Terminated { s with tasks := Function.update s.tasks task (some name) } := by
  refine ⟨fun p old hp => ?_, h.nodes, h.filled⟩
  dsimp only at hp
  by_cases heq : p = task
  · rw [heq, Function.update_self, Option.some.injEq] at hp
    exact hp ▸ hname
  · rw [Function.update_of_ne heq] at hp
    exact h.tasks p old hp

theorem Terminated.addNode (h : s.Terminated) {name : Bytes} (hname : HoldsNul nodeNameSize name) :
    Terminated { s with nodes := name :: s.nodes } :=
  ⟨h.tasks, List.forall_mem_cons.mpr ⟨hname, h.nodes⟩, h.filled⟩

theorem Terminated.addFilled (h : s.Terminated) {name : Bytes}
    (hname : HoldsNul nodeNameSize name) : Terminated { s with filled := name :: s.filled } :=
  ⟨h.tasks, h.nodes, List.forall_mem_cons.mpr ⟨hname, h.filled⟩⟩

/-- A step with a short name. -/
theorem Terminated.step (h : s.Terminated) {op : NameOp} (hop : op.Short)
    (hstep : s.step op = some s') : s'.Terminated := by
  have hnode : ∀ name, HoldsNul nodeNameSize (vfsCreateNodeName name) := fun name =>
    copyName_holdsNul (Nat.zero_le 255) name zeroed
  have htmpfs : ∀ name, HoldsNul nodeNameSize (tmpfsCreateName name) := fun name =>
    @kStrncpy_keepsNul zeroed 255 nodeNameSize rfl (by decide) (stringBytes name)
  cases op with
  | exec task filename =>
    obtain ⟨old, -, rfl⟩ := Option.map_eq_some_iff.mp hstep
    exact h.setTask (kStrncpy_holdsNul (stringBytes_holdsNul hop) le_rfl old)
  | fork parent child =>
    obtain ⟨name, hname, rfl⟩ := Option.map_eq_some_iff.mp hstep
    exact h.setTask (kStrncpy_holdsNul (h.tasks parent name hname) le_rfl zeroed)
  | taskCreate task name =>
    cases hstep
    exact h.setTask (copyName_holdsNul (Nat.zero_le 31) name zeroed)
  | reap task =>
    cases hstep
    refine ⟨fun p name hp => ?_, h.nodes, h.filled⟩
    dsimp only at hp
    rw [Function.update_apply] at hp
    split_ifs at hp
    exact h.tasks p name hp
  | createNode name =>
    cases hstep
    exact h.addNode (hnode name)
  | openCreate stack rest =>
    cases hstep
    exact h.addNode (htmpfs _)
  | mkdir name =>
    cases hstep
    exact h.addNode (htmpfs name)
  | readdir child =>
    cases hstep
    exact h.addFilled (copyName_holdsNul (Nat.zero_le 255) (nameIn child) zeroed)
  | fatReaddir index entries =>
    obtain ⟨entry, hentry, rfl⟩ := Option.map_eq_some_iff.mp hstep
    exact h.addFilled (readdirResult_holdsNul hentry)
  | fatFinddir fs name stack before dir =>
    obtain ⟨lfn, hlfn, hrest⟩ := Option.bind_eq_some_iff.mp hstep
    have hfinal := h.addFilled (finalName_holdsNul (hop lfn hlfn))
    split_ifs at hrest
    cases hrest
    refine ⟨hfinal.tasks, ?_, hfinal.filled⟩
    dsimp only
    split_ifs
    · exact (hfinal.addNode (hnode _)).nodes
    · exact hfinal.nodes

theorem boot_terminated : boot.Terminated where
  tasks p name hp := by
    unfold boot at hp
    dsimp only at hp
    rw [Function.update_apply] at hp
    split_ifs at hp
    cases hp
    exact copyName_holdsNul (Nat.zero_le 31) _ zeroed
  nodes := by
    intro name hname
    rw [boot, List.mem_singleton] at hname
    exact hname ▸ ⟨1, by decide, rfl⟩
  filled := by simp [boot]

end NameArrays

/-- A path that `copy_string_from_user` accepts. -/
def NameOp.Accepted : NameOp → Prop
  | .exec _ filename => 0#8 ∉ filename ∧ filename.length < 255
  | _ => True

/-- In every run of calls with short names a NUL ends every name. -/
theorem names_terminated {s : NameArrays}
    (h : Reach NameArrays.step (fun _ op => op.Accepted ∧ op.Short) .boot s) : s.Terminated :=
  h.invariant NameArrays.boot_terminated fun _ _ _ hs hop hstep => hs.step hop.2 hstep

/-- The main task loads a program, and forks. -/
theorem names_terminated_small : ∃ s : NameArrays, s.Terminated ∧
    s.tasks 1 = some (forkName (execName (taskCreateName
      ("main".toList.map fun c => BitVec.ofNat 8 c.toNat)) [0x2F, 0x61])) := by
  exact ⟨_, names_terminated (.next (i := .fork 0 1)
    (.next (i := .exec 0 [0x2F, 0x61]) .start ⟨⟨by decide, by decide⟩, show 2 < 32 by decide⟩ rfl)
    ⟨trivial, trivial⟩ rfl), rfl⟩

/-- A path of 32 bytes fills the name of its task. -/
theorem exec_name_not_terminated :
    ∃ s, Reach NameArrays.step (fun _ op => op.Accepted) .boot s ∧ ¬ s.Terminated := by
  refine ⟨_, .next (i := .exec 0 (List.replicate 32 0x61)) .start ⟨by decide, by decide⟩ rfl,
    fun h => ?_⟩
  obtain ⟨i, hi, hnul⟩ := h.tasks 0 _ rfl
  have hfull : ∀ i < 32, execName (taskCreateName
      ("main".toList.map fun c => BitVec.ofNat 8 c.toNat)) (List.replicate 32 0x61) i ≠ 0#8 := by
    decide
  exact hfull i hi hnul

end EnclaveOS
