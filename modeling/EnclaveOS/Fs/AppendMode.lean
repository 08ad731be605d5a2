import EnclaveOS.Fs.OpenFailure
import EnclaveOS.User.Stdio

/-!
# AppendMode - writes through descriptors opened with O_APPEND

`sys_write` on the open files of `Vfs`, and runs of opens with `O_APPEND` and of
writes through their descriptors.  `sys_open` starts every open file at offset 0 and
`sys_write` never looks at its flags, so that a write appends only when the offset happens to be
the size of the file.
-/

namespace EnclaveOS

def oAppend : Nat := 0x0400

namespace VfsState

/-- `tmpfs_write` on the node and the data it points to. -/
def tmpfsWriteNode (s : VfsState) (n : Ptr) (node : VfsNode) (offset : Nat) (bytes : List Byte)
    (alloc : Option (Nat → Byte)) : VfsState × Int :=
  match node.privateData with
  | none => (s, -1)
  | some p =>
    let (written, ret) := tmpfsWrite ⟨node.size, s.fileData p⟩ offset bytes alloc
    ({ s.setNode n (some { node with size := written.size }) with
      fileData := Function.update s.fileData p written.privateData }, ret)

/-- `node->write(node, offset, size, buffer)`; directories and the files of the other drivers
have none, and the console takes every byte. -/
def writeCallback (s : VfsState) (n : Ptr) (node : VfsNode) (offset : Nat) (bytes : List Byte)
    (alloc : Option (Nat → Byte)) : VfsState × Int :=
  match node.driver with
  | .tmpfs =>
    if node.flags &&& fsDirectory ≠ 0 then (s, -1) else s.tmpfsWriteNode n node offset bytes alloc
  | .console => (s, int32 bytes.length)
  | .other => (s, -1)

/-- `sys_write`; `alloc` is the outcome of `kmalloc` for a larger buffer. -/
def sysWrite (s : VfsState) (task : TaskId) (fd : Int) (bytes : List Byte)
    (alloc : Option (Nat → Byte)) : Option (VfsState × Int) :=
  match (fdIndex fd).bind fun i => s.fdTable (task, i) with
  | none => some (s, -1)
  | some of => do
    let file ← s.files of
    let node ← s.nodes file.node
    let (s, ret) := s.writeCallback file.node node file.offset bytes alloc
    if 0 < ret then
      some (s.setFile of (some { file with offset := wrap32 (file.offset + ret.toNat) }), ret)
    else some (s, ret)

/-- The bytes of a tmpfs file. -/
def fileBytes (s : VfsState) (n : Ptr) : List Byte :=
  match ((s.nodes n).bind fun node => node.privateData).bind s.fileData with
  | none => []
  | some fdata =>
    match fdata.data with
    | none => []
    | some data => (List.range fdata.size).map data

end VfsState

/-- A call of the processes that append to one file.  The bytes of a write stand in user memory. -/
inductive AppendOp
  | open (task : TaskId) (flags : Nat) (alloc : Option Ptr)
  | write (task : TaskId) (fd : Int) (bytes : List Byte) (alloc : Option (Nat → Byte))

namespace AppendOp

/-- The call, with the bytes that it stores. -/
def step (n : Ptr) (s : VfsState) : AppendOp → Option (VfsState × List Byte)
  | .open task flags alloc => (openNode s task n flags alloc).map fun r => (r.1, [])
  | .write task fd bytes alloc =>
    (s.sysWrite task fd bytes alloc).map fun r => (r.1, if 0 < r.2 then bytes else [])

/-- The calls one after the other, with all the bytes that they store, in order. -/
def run (n : Ptr) : VfsState → List AppendOp → Option (VfsState × List Byte)
  | s, [] => some (s, [])
  | s, op :: ops => do
    let (s, bytes) ← op.step n s
    let (s, data) ← run n s ops
    some (s, bytes ++ data)

/-- Files are opened with `O_APPEND` and without truncation, and `kmalloc` gives out memory
that is free; a write goes through a descriptor of the file, from a buffer of user memory. -/
def Possible (n : Ptr) (s : VfsState) : AppendOp → Prop
  | .open _ flags alloc => flags &&& oAppend ≠ 0 ∧ flags &&& oTrunc = 0 ∧
      ∀ of, alloc = some of → s.files of = none
  | .write task fd bytes _ => bytes.length ≤ 0xC0000000 ∧ ∀ i of file, fdIndex fd = some i →
      s.fdTable (task, i) = some of → s.files of = some file → file.node = n

/-- The quota and the memory for a write that ends at `newSize`. -/
def RoomFor (fdata : TmpfsFileData) (newSize : Nat) (alloc : Option (Nat → Byte)) : Prop :=
  newSize ≤ tmpfsMaxFileSize ∧ (newSize ≤ fdata.capacity ∨ alloc.isSome)

/-- A write that stores bytes goes through an open file whose offset is the size of the file. -/
def AtEnd (s : VfsState) : AppendOp → Prop
  | .open _ _ _ => True
  | .write task fd bytes alloc => ∀ i of file node p fdata, fdIndex fd = some i →
      s.fdTable (task, i) = some of → s.files of = some file → s.nodes file.node = some node →
      node.privateData = some p → s.fileData p = some fdata → bytes ≠ [] →
      RoomFor fdata (file.offset + bytes.length) alloc → file.offset = node.size

/-- All calls of the run are possible where they are made. -/
def AllPossible (n : Ptr) : VfsState → List AppendOp → Prop
  | _, [] => True
  | s, op :: ops => op.Possible n s ∧ ∀ s' bytes, op.step n s = some (s', bytes) → AllPossible n s' ops

/-- All writes of the run that store bytes are made at the end of the file. -/
def AllAtEnd (n : Ptr) : VfsState → List AppendOp → Prop
  | _, [] => True
  | s, op :: ops => op.AtEnd s ∧ ∀ s' bytes, op.step n s = some (s', bytes) → AllAtEnd n s' ops

end AppendOp

/-- A write of bytes stores them when there is room. -/
theorem tmpfsWrite_stored_iff {node : TmpfsNode} {fdata : TmpfsFileData}
    (hdata : node.privateData = some fdata) {offset : Nat} {bytes : List Byte} (hne : bytes ≠ [])
    (hfit : offset + bytes.length < 4294967296) (alloc : Option (Nat → Byte)) :
    (tmpfsWrite node offset bytes alloc).2 = bytes.length ↔
      AppendOp.RoomFor fdata (offset + bytes.length) alloc := by
  have hpos : 0 < bytes.length := List.length_pos_iff.mpr hne
  have hwrap : wrap32 (offset + bytes.length) = offset + bytes.length := Nat.mod_eq_of_lt hfit
  unfold tmpfsWrite AppendOp.RoomFor
  rw [hdata]
  dsimp only
  rw [hwrap]
  by_cases hquota : tmpfsMaxFileSize < offset + bytes.length
  · rw [if_pos hquota]
    exact iff_of_false (by dsimp only; omega) fun hroom => absurd hroom.1 (Nat.not_le.mpr hquota)
  · have hint : int32 bytes.length = bytes.length := if_pos (by
      unfold tmpfsMaxFileSize at hquota
      omega)
    rw [if_neg hquota]
    unfold tmpfsGrow
    by_cases hroom : offset + bytes.length ≤ fdata.capacity
    · rw [if_pos hroom]
      dsimp only
      refine iff_of_true ?_ ⟨Nat.not_lt.mp hquota, Or.inl hroom⟩
      split_ifs <;> exact hint
    · rw [if_neg hroom]
      cases alloc with
      | none =>
        refine iff_of_false (by dsimp only; omega) ?_
        rintro ⟨-, hle | hsome⟩
        · exact hroom hle
        · cases hsome
      | some fresh =>
        dsimp only
        refine iff_of_true ?_ ⟨Nat.not_lt.mp hquota, Or.inr rfl⟩
        split_ifs <;> exact hint

/-- A write of no bytes inside the file changes nothing. -/
theorem TmpfsInv.write_nil {node : TmpfsNode} {a : SparseArray Byte} (h : TmpfsInv node a) {offset : Nat} (hin : offset ≤ a.len)
    (alloc : Option (Nat → Byte)) : tmpfsWrite node offset [] alloc = (node, 0) := by
  obtain ⟨fdata, hdata, hnode, hsize, hcap, hmax, -, -⟩ := h.stored
  have hwrap : wrap32 (offset + ([] : List Byte).length) = offset := by
    unfold tmpfsMaxFileSize at hmax
    exact Nat.mod_eq_of_lt (by simp; omega)
  have hsame : storeAt fdata.size offset [] = id := by
    funext data i
    unfold storeAt copyIn
    rw [if_neg (by simp), if_neg (by omega)]
    rfl
  unfold tmpfsWrite
  rw [hdata]
  dsimp only
  rw [hwrap, if_neg (by unfold tmpfsMaxFileSize at *; omega)]
  unfold tmpfsGrow
  rw [if_pos (by omega)]
  dsimp only
  rw [if_neg (by omega), hsame, Option.map_id]
  exact congrArg (fun p => ((⟨node.size, p⟩ : TmpfsNode), (0 : Int))) hdata.symm

/-- A file of tmpfs with these contents, which no open file has gone past, and every descriptor of
which leads to an open file. -/
structure AppendInv (s : VfsState) (n : Ptr) (a : SparseArray Byte) : Prop where
  holds : ∃ node p, s.nodes n = some node ∧ node.driver = .tmpfs ∧
    node.flags &&& fsDirectory = 0 ∧ node.privateData = some p ∧
    TmpfsInv ⟨node.size, s.fileData p⟩ a
  offsets : ∀ of file, s.files of = some file → file.node = n → file.offset ≤ a.len
  live : ∀ x of, s.fdTable x = some of → (s.files of).isSome

namespace AppendInv

variable {s s' : VfsState} {n : Ptr} {a : SparseArray Byte}

/-- The bytes of the file are those of the array. -/
theorem fileBytes_eq (h : AppendInv s n a) : s.fileBytes n = a.toList := by
  obtain ⟨node, p, hnode, -, -, hpriv, hinv⟩ := h.holds
  obtain ⟨fdata, hdata, -, hsize, hcap, -, hnone, hget⟩ := hinv.stored
  have hdata : s.fileData p = some fdata := hdata
  unfold VfsState.fileBytes SparseArray.toList
  simp only [hnode, Option.bind_some, hpriv, hdata]
  cases hbuf : fdata.data with
  | none =>
    have hzero := hnone hbuf
    have hlen : a.len = 0 := by omega
    simp [hlen]
  | some data =>
    dsimp only
    rw [hsize]
    exact List.map_congr_left fun i hi => hget data hbuf i (List.mem_range.mp hi)

/-- Opening the file puts an open file at its start, or changes nothing. -/
theorem openFile (h : AppendInv s n a) {task : TaskId} {flags : Nat} {alloc : Option Ptr}
    (hp : (AppendOp.open task flags alloc).Possible n s) :
    ∃ s' r, openNode s task n flags alloc = some (s', r) ∧ AppendInv s' n a := by
  obtain ⟨-, htrunc, hfree⟩ := hp
  obtain ⟨node, p, hnode, hdriver, hdir, hpriv, hinv⟩ := h.holds
  have hcall : s.openCallback n node flags = (s, 0) := by
    unfold VfsState.openCallback
    rw [hdriver]
    dsimp only
    rw [(tmpfsOpenNode_quiet_iff flags hnode).mpr fun hne => absurd htrunc hne]
  obtain ⟨node', hnode', heq⟩ := openNode_eq task flags alloc hnode
  rw [hcall] at hnode' heq
  obtain rfl := Option.some.inj (hnode.symm.trans hnode')
  rw [heq]
  split_ifs with hprot hrefused
  · exact ⟨s, _, rfl, h⟩
  · exact ⟨s, _, rfl, h⟩
  · cases alloc with
    | none => exact ⟨s, _, rfl, h⟩
    | some of =>
      cases hfd : s.freeFd task with
      | none => exact ⟨s, _, rfl, h⟩
      | some i =>
        refine ⟨_, _, rfl, ⟨_, p, Function.update_self .., hdriver, hdir, hpriv, hinv⟩,
          fun of' file hfile hn => ?_, fun x of' hx => ?_⟩
        · simp only [VfsState.opened, VfsState.setSlot_files, VfsState.setFile_files,
            VfsState.setNode_files, Function.update_apply] at hfile
          split_ifs at hfile
          · cases hfile
            exact Nat.zero_le _
          · exact h.offsets of' file hfile hn
        · simp only [VfsState.opened, VfsState.setSlot_fdTable, VfsState.setFile_fdTable,
            VfsState.setNode_fdTable, VfsState.setSlot_files, VfsState.setFile_files,
            VfsState.setNode_files, Function.update_apply] at hx ⊢
          by_cases hof : of' = of
          · rw [if_pos hof]
            rfl
          · rw [if_neg hof]
            split_ifs at hx with hslot
            · exact absurd (Option.some.inj hx).symm hof
            · exact h.live x of' hx

/-- The callback of a tmpfs file. -/
theorem writeCallback_tmpfs (s : VfsState) (n : Ptr) {node : VfsNode} {p : Ptr}
    (hdriver : node.driver = .tmpfs) (hdir : node.flags &&& fsDirectory = 0)
    (hpriv : node.privateData = some p) (offset : Nat) (bytes : List Byte)
    (alloc : Option (Nat → Byte)) :
    s.writeCallback n node offset bytes alloc =
      ({ s.setNode n (some { node with
            size := (tmpfsWrite ⟨node.size, s.fileData p⟩ offset bytes alloc).1.size }) with
          fileData := Function.update s.fileData p
            (tmpfsWrite ⟨node.size, s.fileData p⟩ offset bytes alloc).1.privateData },
        (tmpfsWrite ⟨node.size, s.fileData p⟩ offset bytes alloc).2) := by
  obtain ⟨size, flags, driver, privateData, refCount, isUnlinked⟩ := node
  obtain rfl : driver = .tmpfs := hdriver
  obtain rfl : privateData = some p := hpriv
  unfold VfsState.writeCallback
  dsimp only
  rw [if_neg (not_not_intro hdir)]
  rfl

/-- The file after bytes are stored through an open file. -/
theorem stored (h : AppendInv s n a) (of : Ptr) (file : OpenFile) {node : VfsNode} {p : Ptr}
    (hdriver : node.driver = .tmpfs) (hdir : node.flags &&& fsDirectory = 0) (hpriv : node.privateData = some p)
    {bytes : List Byte} {written : TmpfsNode}
    (hinv : TmpfsInv written (a.write file.offset bytes)) :
    AppendInv (({ s.setNode n (some { node with size := written.size }) with
        fileData := Function.update s.fileData p written.privateData } : VfsState).setFile of
          (some { file with offset := wrap32 (file.offset + bytes.length) })) n
      (a.write file.offset bytes) where
  holds := ⟨_, p, Function.update_self .., hdriver, hdir, hpriv, by
    dsimp only [VfsState.setFile]
    rw [Function.update_self]
    exact hinv⟩
  offsets of' file' hfile' hn := by
    dsimp only [VfsState.setFile, VfsState.setNode] at hfile'
    rw [Function.update_apply] at hfile'
    rw [SparseArray.write_len]
    split_ifs at hfile'
    · cases hfile'
      exact (Nat.mod_le _ _).trans (le_max_right ..)
    · exact (h.offsets of' file' hfile' hn).trans (le_max_left ..)
  live x of' hx := by
    dsimp only [VfsState.setFile, VfsState.setNode]
    rw [Function.update_apply]
    split_ifs
    · rfl
    · exact h.live x of' hx

/-- A write through a descriptor of the file stores its bytes at the offset of the open file, or
changes nothing. -/
theorem write (h : AppendInv s n a) {task : TaskId} {fd : Int} {bytes : List Byte}
    {alloc : Option (Nat → Byte)} (hp : (AppendOp.write task fd bytes alloc).Possible n s) :
    ∃ s' r, s.sysWrite task fd bytes alloc = some (s', r) ∧
      ((¬0 < r ∧ AppendInv s' n a ∧ (AppendOp.write task fd bytes alloc).AtEnd s) ∨
        ∃ offset, 0 < r ∧ bytes ≠ [] ∧ offset ≤ a.len ∧ AppendInv s' n (a.write offset bytes) ∧
          ((AppendOp.write task fd bytes alloc).AtEnd s ↔ offset = a.len)) := by
  obtain ⟨hlen, hthrough⟩ := hp
  unfold VfsState.sysWrite
  cases hi : fdIndex fd with
  | none =>
    refine ⟨s, -1, rfl, Or.inl ⟨by decide, h, fun i of file node p fdata hfd => ?_⟩⟩
    rw [hi] at hfd
    cases hfd
  | some i =>
    rw [Option.bind_some]
    cases hof : s.fdTable (task, i) with
    | none =>
      refine ⟨s, -1, rfl, Or.inl ⟨by decide, h, fun j of file node p fdata hfd hslot => ?_⟩⟩
      obtain rfl := Option.some.inj (hi.symm.trans hfd)
      rw [hof] at hslot
      cases hslot
    | some of =>
      obtain ⟨file, hfile⟩ := Option.isSome_iff_exists.mp (h.live _ of hof)
      obtain rfl := hthrough i of file hi hof hfile
      obtain ⟨node, p, hnode, hdriver, hdir, hpriv, hinv⟩ := h.holds
      have hoffset := h.offsets of file hfile rfl
      obtain ⟨hnodeSize, fdata, hdata, hsize, hcap⟩ := hinv.sizes
      have hend : (AppendOp.write task fd bytes alloc).AtEnd s ↔ (bytes ≠ [] →
          AppendOp.RoomFor fdata (file.offset + bytes.length) alloc → file.offset = a.len) := by
        constructor
        · intro hat hne hroom
          rw [← hnodeSize]
          exact hat i of file node p fdata hi hof hfile hnode hpriv hdata hne hroom
        · intro hat j of' file' node' p' fdata' hj hof' hfile' hnode' hpriv' hdata' hne hroom
          obtain rfl := Option.some.inj (hi.symm.trans hj)
          obtain rfl := Option.some.inj (hof.symm.trans hof')
          obtain rfl := Option.some.inj (hfile.symm.trans hfile')
          obtain rfl := Option.some.inj (hnode.symm.trans hnode')
          obtain rfl := Option.some.inj (hpriv.symm.trans hpriv')
          obtain rfl := Option.some.inj (hdata.symm.trans hdata')
          rw [hat hne hroom]
          exact hnodeSize.symm
      have hself : ∀ written : TmpfsNode, written = ⟨node.size, s.fileData p⟩ →
          ({ s.setNode file.node (some { node with size := written.size }) with
            fileData := Function.update s.fileData p written.privateData } : VfsState) = s := by
        rintro _ rfl
        unfold VfsState.setNode
        dsimp only
        rw [← hnode, Function.update_eq_self, Function.update_eq_self]
      dsimp only
      rw [hfile, Option.bind_eq_bind, Option.bind_some, hnode, Option.bind_eq_bind, Option.bind_some]
      rw [writeCallback_tmpfs s file.node hdriver hdir hpriv]
      generalize hwrite : tmpfsWrite ⟨node.size, s.fileData p⟩ file.offset bytes alloc = result
      obtain ⟨written, ret⟩ := result
      dsimp only
      by_cases hne : bytes = []
      · subst hne
        have hnil := hinv.write_nil hoffset alloc
        obtain ⟨rfl, rfl⟩ := Prod.mk.inj (hwrite.symm.trans hnil)
        rw [if_neg (by decide), hself _ rfl]
        exact ⟨s, 0, rfl, Or.inl ⟨by decide, h, hend.mpr fun hne => absurd rfl hne⟩⟩
      · have hquota : a.len ≤ tmpfsMaxFileSize := by
          obtain ⟨_, _, _, hlenSize, hcapSize, hmax, -⟩ := hinv.stored
          omega
        have hfit : file.offset + bytes.length < 4294967296 := by
          unfold tmpfsMaxFileSize at hquota
          omega
        have hpos : 0 < bytes.length := List.length_pos_iff.mpr hne
        have hfile : (⟨node.size, s.fileData p⟩ : TmpfsNode).privateData = some fdata := hdata
        have hstored := tmpfsWrite_stored_iff hfile hne hfit alloc
        have hcases := hinv.write hne hfit alloc
        rw [hwrite] at hstored hcases
        dsimp only at hstored hcases
        obtain ⟨hret, hwritten⟩ | ⟨hret, hwritten⟩ := hcases
        · have hpositive : 0 < ret := by omega
          have htoNat : ret.toNat = bytes.length := by omega
          rw [if_pos hpositive, htoNat]
          refine ⟨_, ret, rfl, Or.inr ⟨file.offset, hpositive, hne, hoffset,
            h.stored of file hdriver hdir hpriv hwritten, ?_⟩⟩
          rw [hend]
          exact ⟨fun hat => hat hne (hstored.mp hret), fun hat _ _ => hat⟩
        · have hnegative : ¬0 < ret := by omega
          rw [if_neg hnegative, hself _ hwritten]
          refine ⟨s, ret, rfl, Or.inl ⟨hnegative, h, hend.mpr fun _ hroom => ?_⟩⟩
          have hret' := hstored.mpr hroom
          omega

end AppendInv

/-- A state in which a file of tmpfs is open, with `O_APPEND`, at its start only. -/
structure AppendFile where
  state : VfsState
  file : Ptr
  content : SparseArray Byte
  inv : AppendInv state file content
  fresh : ∀ of f, state.files of = some f → f.node = file → f.offset = 0 ∧ f.flags &&& oAppend ≠ 0

namespace AppendOp

variable {n : Ptr}

theorem allAtEnd_cons {s s₁ : VfsState} {op : AppendOp} {bytes : List Byte}
    (h : op.step n s = some (s₁, bytes)) (ops : List AppendOp) :
    AllAtEnd n s (op :: ops) ↔ op.AtEnd s ∧ AllAtEnd n s₁ ops := by
  constructor
  · exact fun hall => ⟨hall.1, hall.2 s₁ bytes h⟩
  · rintro ⟨hop, hall⟩
    refine ⟨hop, fun s₂ bytes' hs₂ => ?_⟩
    obtain ⟨rfl, rfl⟩ := Prod.mk.inj (Option.some.inj (h.symm.trans hs₂))
    exact hall

theorem run_cons {s s₁ s' : VfsState} {op : AppendOp} {ops : List AppendOp}
    {bytes data : List Byte} (h : op.step n s = some (s₁, bytes))
    (hrun : run n s₁ ops = some (s', data)) : run n s (op :: ops) = some (s', bytes ++ data) := by
  rw [run, h, Option.bind_eq_bind, Option.bind_some]
  dsimp only
  rw [hrun]
  rfl

/-- What a run does to the length of the file, and to its bytes. -/
theorem run_spec {s : VfsState} {a : SparseArray Byte} (h : AppendInv s n a) (ops : List AppendOp)
    (hops : AllPossible n s ops) :
    ∃ s' data b, run n s ops = some (s', data) ∧ AppendInv s' n b ∧
      b.len ≤ a.len + data.length ∧ (b.len = a.len + data.length ↔ AllAtEnd n s ops) ∧
      (AllAtEnd n s ops → b.toList = a.toList ++ data) := by
  induction ops generalizing s a with
  | nil => exact ⟨s, [], a, rfl, h, le_rfl, by simp [AllAtEnd], by simp⟩
  | cons op ops ih =>
    obtain ⟨hop, hrest⟩ := hops
    have hkept : ∀ s₁, op.step n s = some (s₁, []) → AppendInv s₁ n a → op.AtEnd s →
        ∃ s' data b, run n s (op :: ops) = some (s', data) ∧ AppendInv s' n b ∧
          b.len ≤ a.len + data.length ∧
          (b.len = a.len + data.length ↔ AllAtEnd n s (op :: ops)) ∧
          (AllAtEnd n s (op :: ops) → b.toList = a.toList ++ data) := by
      intro s₁ hstep hinv hat
      obtain ⟨s', data, b, hrun, hinv', hle, hlen, hbytes⟩ := ih hinv (hrest s₁ [] hstep)
      have hend := allAtEnd_cons hstep ops
      exact ⟨s', data, b, run_cons hstep hrun, hinv', hle,
        hlen.trans (hend.trans (and_iff_right hat)).symm, fun hall => hbytes (hend.mp hall).2⟩
    cases op with
    | «open» task flags alloc =>
      obtain ⟨s₁, r, hopen, hinv⟩ := h.openFile hop
      exact hkept s₁ (by rw [step, hopen]; rfl) hinv trivial
    | write task fd bytes alloc =>
      obtain ⟨s₁, r, hwrite, hcases⟩ := h.write hop
      obtain ⟨hr, hinv, hat⟩ | ⟨offset, hr, hne, hoffset, hinv, hat⟩ := hcases
      · exact hkept s₁ (by rw [step, hwrite, Option.map_some, if_neg hr]) hinv hat
      · have hstep : (AppendOp.write task fd bytes alloc).step n s = some (s₁, bytes) := by
          rw [step, hwrite, Option.map_some, if_pos hr]
        obtain ⟨s', data, b, hrun, hinv', hle, hlen, hbytes⟩ := ih hinv (hrest s₁ bytes hstep)
        have hend := allAtEnd_cons hstep ops
        have hpos : 0 < bytes.length := List.length_pos_iff.mpr hne
        rw [SparseArray.write_len] at hle hlen
        refine ⟨s', bytes ++ data, b, run_cons hstep hrun, hinv', ?_, ?_, fun hall => ?_⟩
        · rw [List.length_append]
          omega
        · rw [hend, hat, ← hlen, List.length_append]
          omega
        · obtain ⟨hfirst, hall⟩ := hend.mp hall
          obtain rfl := hat.mp hfirst
          rw [hbytes hall, SparseArray.toList_write_len, List.append_assoc]

end AppendOp

/-- The data of a run stand behind the old content, in the order in which the writes reached the
kernel. -/
def AppendsInOrder (f : AppendFile) (ops : List AppendOp) : Prop :=
  ∃ s' data, AppendOp.run f.file f.state ops = some (s', data) ∧
    s'.fileBytes f.file = f.state.fileBytes f.file ++ data

/-- The data of a run follow the old content exactly when every write that stores bytes finds the
offset of its open file at the end of the file. -/
theorem append_mode_iff (f : AppendFile) (ops : List AppendOp)
    (hops : AppendOp.AllPossible f.file f.state ops) :
    AppendsInOrder f ops ↔ AppendOp.AllAtEnd f.file f.state ops := by
  obtain ⟨s', data, b, hrun, hinv, -, hlen, hbytes⟩ := AppendOp.run_spec f.inv ops hops
  unfold AppendsInOrder
  constructor
  · rintro ⟨s'', data', hrun', heq⟩
    obtain ⟨rfl, rfl⟩ := Prod.mk.inj (Option.some.inj (hrun.symm.trans hrun'))
    rw [hinv.fileBytes_eq, f.inv.fileBytes_eq] at heq
    have hlens := congrArg List.length heq
    rw [List.length_append, SparseArray.toList_length, SparseArray.toList_length] at hlens
    exact hlen.mp hlens
  · intro hend
    refine ⟨s', data, hrun, ?_⟩
    rw [hinv.fileBytes_eq, f.inv.fileBytes_eq, hbytes hend]

/-- A file of one byte, opened with `O_WRONLY | O_APPEND` as descriptor 0. -/
def letterState : VfsState where
  status _ := .active
  fdTable x := if x = (0, 0) then some 2 else none
  files of := if of = 2 then some ⟨0, 0, 0x401, 1⟩ else none
  nodes n := if n = 0 then some ⟨1, fsFile, .tmpfs, some 1, 1, false⟩ else none
  fileData p := if p = 1 then some ⟨some fun i => if i = 0 then 65 else 0, 1, 1⟩ else none
  consoleOpenCount := 0

/-- The array of this file. -/
def letterArray : SparseArray Byte := SparseArray.empty.write 0 [65]

theorem letterState_inv : AppendInv letterState 0 letterArray where
  holds := by
    refine ⟨⟨1, fsFile, .tmpfs, some 1, 1, false⟩, 1, rfl, rfl, by decide, rfl, ⟨?_⟩⟩
    refine ⟨⟨some fun i => if i = 0 then 65 else 0, 1, 1⟩, rfl, rfl, rfl, le_rfl, by decide,
      (by simp), ?_⟩
    rintro data hdata i hi
    cases hdata
    have hlen : letterArray.len = 1 := rfl
    obtain rfl : i = 0 := by omega
    rfl
  offsets of file hfile _ := by
    simp only [letterState] at hfile
    split_ifs at hfile
    cases hfile
    exact Nat.zero_le _
  live x of hx := by
    simp only [letterState] at hx ⊢
    split_ifs at hx
    cases hx
    rfl

/-- The open file of one byte. -/
def letterFile : AppendFile where
  state := letterState
  file := 0
  content := letterArray
  inv := letterState_inv
  fresh of f hf _ := by
    simp only [letterState] at hf
    split_ifs at hf
    cases hf
    exact ⟨rfl, by decide⟩

/-- One byte written through the descriptor. -/
def letterWrite : List AppendOp := [.write 0 0 [66] none]

/-- The byte that is appended replaces the old one. -/
theorem append_overwrites : ¬AppendsInOrder letterFile letterWrite := by
  rintro ⟨s', data, hrun, hbytes⟩
  have hafter : (AppendOp.run letterFile.file letterFile.state letterWrite).map
      (fun r => (r.1.fileBytes 0, r.2)) = some ([66], [66]) := by decide +kernel
  rw [hrun, Option.map_some, Option.some.injEq, Prod.mk.injEq] at hafter
  obtain ⟨hnew, rfl⟩ := hafter
  have hfile : s'.fileBytes letterFile.file = [66] := hnew
  have hold : letterFile.state.fileBytes letterFile.file = [65] := by decide +kernel
  rw [hfile, hold] at hbytes
  simp at hbytes

theorem append_mode_letter :
    AppendOp.AllPossible 0 letterState letterWrite ∧
      (AppendsInOrder letterFile letterWrite ↔ AppendOp.AllAtEnd 0 letterState letterWrite) := by
  have hpossible : AppendOp.AllPossible 0 letterState letterWrite := by
    refine ⟨⟨by simp, fun i of file _ _ hfile => ?_⟩, fun _ _ _ => trivial⟩
    simp only [letterState] at hfile
    split_ifs at hfile
    cases hfile
    rfl
  exact ⟨hpossible, append_mode_iff letterFile letterWrite hpossible⟩

end EnclaveOS
