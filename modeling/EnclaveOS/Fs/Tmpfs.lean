import EnclaveOS.Config
import EnclaveOS.Foundation.SparseArray
import Mathlib.Data.BitVec

/-!
# Tmpfs - the contents of a file in memory

`tmpfs_open`, `tmpfs_read` and `tmpfs_write` of `tmpfs.c` on
one file.  A buffer is its bytes by offset; `kmalloc` delivers one with
arbitrary contents, or nothing, and its outcome is an argument.
-/

namespace EnclaveOS

/-- A byte. -/
abbrev Byte := BitVec 8

/-- `tmpfs_file_data_t`. -/
structure TmpfsFileData where
  data : Option (Nat → Byte)
  size : Nat
  capacity : Nat

/-- The fields of `vfs_node_t` that the driver uses. -/
structure TmpfsNode where
  size : Nat
  privateData : Option TmpfsFileData

def tmpfsMaxFileSize : Nat := 25 * 1024 * 1024
def oTrunc : Nat := 0x0200

/-- A file as `tmpfs_create` makes it. -/
def TmpfsNode.created : TmpfsNode := ⟨0, some ⟨none, 0, 0⟩⟩

/-- `k_memcpy` into a buffer. -/
def copyIn (buffer : Nat → Byte) (offset : Nat) (bytes : List Byte) (i : Nat) : Byte :=
  if offset ≤ i ∧ i < offset + bytes.length then bytes.getD (i - offset) 0 else buffer i

/-- `k_memset(buffer + start, 0, stop - start)`. -/
def zeroFill (buffer : Nat → Byte) (start stop i : Nat) : Byte :=
  if start ≤ i ∧ i < stop then 0 else buffer i

/-- `tmpfs_open`: truncation keeps the buffer. -/
def tmpfsOpen (node : TmpfsNode) (flags : Nat) : TmpfsNode :=
  if flags &&& oTrunc ≠ 0 then
    match node.privateData with
    | some fdata => ⟨0, some { fdata with size := 0 }⟩
    | none => node
  else node

/-- `tmpfs_read`: the return value and the bytes stored. -/
def tmpfsRead (node : TmpfsNode) (offset size : Nat) : Int × List Byte :=
  match node.privateData with
  | none => (0, [])
  | some fdata =>
    match fdata.data with
    | none => (0, [])
    | some data =>
      if fdata.size ≤ offset then (0, [])
      else
        let size := if fdata.size < wrap32 (offset + size) then fdata.size - offset else size
        (int32 size, (List.range size).map fun i => data (offset + i))

/-- The loop `while (new_capacity < new_size) new_capacity <<= 1`, with a
bound on its rounds. -/
def doubleUntil (bound : Nat) : Nat → Nat → Nat
  | 0, capacity => capacity
  | rounds + 1, capacity =>
    if capacity < bound then doubleUntil bound rounds (capacity * 2) else capacity

/-- The capacity of a grown buffer. -/
def grownCapacity (newSize : Nat) : Nat :=
  min (if newSize < 1024 * 1024 then doubleUntil newSize 20 1 else newSize + newSize / 4)
    tmpfsMaxFileSize

/-- The file with room for `newSize` bytes; `alloc` is the outcome of
`kmalloc`. -/
def tmpfsGrow (fdata : TmpfsFileData) (newSize : Nat) (alloc : Option (Nat → Byte)) :
    Option TmpfsFileData :=
  if newSize ≤ fdata.capacity then some fdata
  else
    match alloc with
    | none => none
    | some fresh =>
      let newData :=
        match fdata.data with
        | some data => if 0 < fdata.size then copyIn fresh 0 ((List.range fdata.size).map data)
            else fresh
        | none => fresh
      some ⟨some newData, fdata.size, grownCapacity newSize⟩

/-- The end of `tmpfs_write`: a hole is filled with zeros, then the bytes are
copied. -/
def storeAt (size offset : Nat) (bytes : List Byte) (data : Nat → Byte) : Nat → Byte :=
  copyIn (if size < offset then zeroFill data size offset else data) offset bytes

/-- `tmpfs_write`. -/
def tmpfsWrite (node : TmpfsNode) (offset : Nat) (bytes : List Byte)
    (alloc : Option (Nat → Byte)) : TmpfsNode × Int :=
  match node.privateData with
  | none => (node, -1)
  | some fdata =>
    let newSize := wrap32 (offset + bytes.length)
    if tmpfsMaxFileSize < newSize then (node, -28)
    else
      match tmpfsGrow fdata newSize alloc with
      | none => (node, -12)
      | some fdata =>
        let fdata := { fdata with data := fdata.data.map (storeAt fdata.size offset bytes) }
        if fdata.size < newSize then
          (⟨newSize, some { fdata with size := newSize }⟩, int32 bytes.length)
        else ({ node with privateData := some fdata }, int32 bytes.length)

/-- The buffer holds the array `a` below the size; both sizes agree, and they
fit the buffer.  Nothing is said about the bytes above the size. -/
structure TmpfsInv (node : TmpfsNode) (a : SparseArray Byte) : Prop where
  stored : ∃ fdata, node.privateData = some fdata ∧ node.size = fdata.size ∧
    fdata.size = a.len ∧ fdata.size ≤ fdata.capacity ∧ fdata.capacity ≤ tmpfsMaxFileSize ∧
    (fdata.data = none → fdata.capacity = 0) ∧
    ∀ data, fdata.data = some data → ∀ i < a.len, data i = a.get i

theorem TmpfsInv.created : TmpfsInv .created .empty :=
  ⟨⟨none, 0, 0⟩, rfl, rfl, rfl, le_rfl, Nat.zero_le _, fun _ => rfl, by simp⟩

theorem doubleUntil_ge {bound : Nat} (rounds : Nat) {capacity : Nat}
    (h : bound ≤ capacity * 2 ^ rounds) : bound ≤ doubleUntil bound rounds capacity := by
  induction rounds generalizing capacity with
  | zero => simpa [doubleUntil] using h
  | succ rounds ih =>
    rw [doubleUntil]
    split_ifs with hlt
    · exact ih (by rwa [Nat.mul_assoc, ← Nat.pow_succ'])
    · exact Nat.not_lt.mp hlt

/-- A grown buffer is large enough, and not above the quota. -/
theorem grownCapacity_bounds {newSize : Nat} (h : newSize ≤ tmpfsMaxFileSize) :
    newSize ≤ grownCapacity newSize ∧ grownCapacity newSize ≤ tmpfsMaxFileSize := by
  refine ⟨le_min ?_ h, min_le_right _ _⟩
  split_ifs with hsmall
  · exact doubleUntil_ge 20 (by omega)
  · omega

namespace TmpfsInv

variable {node : TmpfsNode} {a : SparseArray Byte}

theorem sizes (h : TmpfsInv node a) : node.size = a.len ∧ ∃ fdata,
    node.privateData = some fdata ∧ fdata.size = node.size ∧ fdata.size ≤ fdata.capacity := by
  obtain ⟨fdata, hdata, hnode, hsize, hcap, -⟩ := h.stored
  exact ⟨hnode.trans hsize, fdata, hdata, hnode.symm, hcap⟩

/-- Opening truncates the array, or leaves it. -/
theorem opened (h : TmpfsInv node a) (flags : Nat) :
    TmpfsInv (tmpfsOpen node flags) (if flags &&& oTrunc ≠ 0 then .empty else a) := by
  unfold tmpfsOpen
  split_ifs
  · obtain ⟨fdata, hdata, -, -, -, hmax, hnone, -⟩ := h.stored
    rw [hdata]
    exact ⟨{ fdata with size := 0 }, rfl, rfl, rfl, Nat.zero_le _, hmax, hnone, by simp⟩
  · exact h

/-- A read returns the slice of the array. -/
theorem read (h : TmpfsInv node a) {offset size : Nat} (hfit : offset + size < 4294967296) :
    tmpfsRead node offset size = (((a.slice offset size).length : Int), a.slice offset size) := by
  obtain ⟨fdata, hdata, -, hsize, hcap, hmax, hnone, hget⟩ := h.stored
  have hwrap : wrap32 (offset + size) = offset + size := Nat.mod_eq_of_lt hfit
  have hint : ∀ n ≤ fdata.size, int32 n = n := fun n hn => if_pos (by
    unfold tmpfsMaxFileSize at hmax
    omega)
  unfold tmpfsRead SparseArray.slice
  simp only [hdata, hwrap]
  cases hbuf : fdata.data with
  | none =>
    have hzero := hnone hbuf
    rw [show min (offset + size) a.len - offset = 0 by omega]
    rfl
  | some data =>
    dsimp only
    split_ifs with hpast hclip
    · rw [show min (offset + size) a.len - offset = 0 by omega]
      rfl
    · rw [show min (offset + size) a.len - offset = fdata.size - offset by omega,
        hint _ (Nat.sub_le ..)]
      simp only [List.length_map, List.length_range, Prod.mk.injEq, true_and]
      exact List.map_congr_left fun i hi => hget data hbuf _ (by
        rw [List.mem_range] at hi
        omega)
    · rw [show min (offset + size) a.len - offset = size by omega, hint _ (by omega)]
      simp only [List.length_map, List.length_range, Prod.mk.injEq, true_and]
      exact List.map_congr_left fun i hi => hget data hbuf _ (by
        rw [List.mem_range] at hi
        omega)

/-- Growing keeps the stored bytes. -/
theorem grow (h : TmpfsInv node a) {fdata : TmpfsFileData} (hdata : node.privateData = some fdata)
    {newSize : Nat} (hpos : 0 < newSize) (hmax : newSize ≤ tmpfsMaxFileSize)
    {alloc : Option (Nat → Byte)} {fdata' : TmpfsFileData}
    (hgrow : tmpfsGrow fdata newSize alloc = some fdata') :
    fdata'.size = a.len ∧ fdata'.size ≤ fdata'.capacity ∧ newSize ≤ fdata'.capacity ∧
      fdata'.capacity ≤ tmpfsMaxFileSize ∧
      ∃ data, fdata'.data = some data ∧ ∀ i < a.len, data i = a.get i := by
  obtain ⟨fdata₀, hdata₀, -, hsize, hcap, hquota, hnone, hget⟩ := h.stored
  rw [hdata] at hdata₀
  cases hdata₀
  unfold tmpfsGrow at hgrow
  by_cases hroom : newSize ≤ fdata.capacity
  · rw [if_pos hroom] at hgrow
    cases hgrow
    cases hbuf : fdata.data with
    | none =>
      have := hnone hbuf
      omega
    | some data => exact ⟨hsize, hcap, hroom, hquota, data, rfl, hget data hbuf⟩
  · rw [if_neg hroom] at hgrow
    obtain ⟨hge, hle⟩ := grownCapacity_bounds hmax
    cases alloc with
    | none => cases hgrow
    | some fresh =>
      cases hgrow
      refine ⟨hsize, by dsimp only; omega, hge, hle, _, rfl, fun i hi => ?_⟩
      cases hbuf : fdata.data with
      | none =>
        have := hnone hbuf
        omega
      | some data =>
        have hi' : i < fdata.size := by omega
        dsimp only
        rw [if_pos (by omega), copyIn, if_pos (by simpa using hi')]
        simp only [Nat.sub_zero, List.getD_eq_getElem?_getD, List.getElem?_map,
          List.getElem?_range hi', Option.map_some, Option.getD_some]
        exact hget data hbuf i hi

/-- A write of at least one byte is a write of the array, or fails and changes
nothing. -/
theorem write (h : TmpfsInv node a) {offset : Nat} {bytes : List Byte} (hne : bytes ≠ [])
    (hfit : offset + bytes.length < 4294967296) (alloc : Option (Nat → Byte)) :
    ((tmpfsWrite node offset bytes alloc).2 = bytes.length ∧
        TmpfsInv (tmpfsWrite node offset bytes alloc).1 (a.write offset bytes)) ∨
      ((tmpfsWrite node offset bytes alloc).2 = -28 ∨
          (tmpfsWrite node offset bytes alloc).2 = -12) ∧
        (tmpfsWrite node offset bytes alloc).1 = node := by
  have hpos : 0 < bytes.length := List.length_pos_iff.mpr hne
  obtain ⟨hnode, -⟩ := h.sizes
  obtain ⟨fdata, hdata, -⟩ := h.stored
  have hwrap : wrap32 (offset + bytes.length) = offset + bytes.length := Nat.mod_eq_of_lt hfit
  unfold tmpfsWrite
  simp only [hdata, hwrap]
  by_cases hquota : tmpfsMaxFileSize < offset + bytes.length
  · rw [if_pos hquota]
    exact Or.inr ⟨Or.inl rfl, rfl⟩
  rw [if_neg hquota]
  cases hgrow : tmpfsGrow fdata (offset + bytes.length) alloc with
  | none => exact Or.inr ⟨Or.inr rfl, rfl⟩
  | some fdata' =>
    obtain ⟨hsize, hcap, hroom, hmax, data, hbuf, hget⟩ :=
      h.grow hdata (by omega) (Nat.not_lt.mp hquota) hgrow
    left
    -- below the new length, the buffer holds the new array
    have hbytes : ∀ i < max a.len (offset + bytes.length),
        storeAt fdata'.size offset bytes data i = (a.write offset bytes).get i := by
      intro i hi
      rw [SparseArray.write_get, storeAt, copyIn]
      by_cases hin : offset ≤ i ∧ i < offset + bytes.length
      · rw [if_pos hin, if_pos hin]
      · rw [if_neg hin, if_neg hin]
        by_cases hlen : i < a.len
        · split_ifs
          · rw [zeroFill, if_neg (by omega), hget i hlen]
          · exact hget i hlen
        · rw [if_pos (by omega), zeroFill, if_pos (by omega), a.beyond i (by omega)]
    have hlen : (a.write offset bytes).len = max fdata'.size (offset + bytes.length) := by
      rw [hsize, SparseArray.write_len]
    have hstored : ∀ data', Option.map (storeAt fdata'.size offset bytes) (some data) = some data' →
        ∀ i < (a.write offset bytes).len, data' i = (a.write offset bytes).get i := by
      rintro _ ⟨⟩
      exact hbytes
    have hint : int32 bytes.length = bytes.length := if_pos (by
      unfold tmpfsMaxFileSize at hquota
      omega)
    simp only [hbuf, hint]
    split_ifs with hlonger
    · exact ⟨rfl, ⟨_, rfl, rfl, by dsimp only; omega, hroom, hmax, by simp, hstored⟩⟩
    · exact ⟨rfl, ⟨_, rfl, by dsimp only; omega, by dsimp only; omega, hcap, hmax, by simp,
        hstored⟩⟩

end TmpfsInv

/-- A call on the file, with the outcome of the `kmalloc` it may make. -/
inductive TmpfsCall
  | write (offset : Nat) (bytes : List Byte) (alloc : Option (Nat → Byte))
  | read (offset size : Nat)
  | openFile (flags : Nat)

/-- A write stores at least one byte, and no range wraps. -/
def TmpfsCall.Valid : TmpfsCall → Prop
  | .write offset bytes _ => bytes ≠ [] ∧ offset + bytes.length < 4294967296
  | .read offset size => offset + size < 4294967296
  | .openFile _ => True

/-- The writes accepted since the last truncation, the oldest first. -/
abbrev WriteLog := List (Nat × List Byte)

/-- One call, on the file and on the log of what its caller was told. -/
def TmpfsCall.run (s : TmpfsNode × WriteLog) : TmpfsCall → TmpfsNode × WriteLog
  | .write offset bytes alloc =>
    let (node, result) := tmpfsWrite s.1 offset bytes alloc
    (node, if result < 0 then s.2 else s.2 ++ [(offset, bytes)])
  | .read _ _ => s
  | .openFile flags => (tmpfsOpen s.1 flags, if flags &&& oTrunc ≠ 0 then [] else s.2)

/-- The calls made in order on a file that was just created. -/
def tmpfsRun (calls : List TmpfsCall) : TmpfsNode × WriteLog :=
  calls.foldl TmpfsCall.run (.created, [])

theorem TmpfsCall.run_inv {s : TmpfsNode × WriteLog} (h : TmpfsInv s.1 (.ofWrites s.2))
    {call : TmpfsCall} (hvalid : call.Valid) :
    TmpfsInv (call.run s).1 (.ofWrites (call.run s).2) := by
  cases call with
  | write offset bytes alloc =>
    dsimp only [TmpfsCall.run]
    obtain ⟨hres, hinv⟩ | ⟨hres, hsame⟩ := h.write hvalid.1 hvalid.2 alloc
    · rw [hres, if_neg (by omega), SparseArray.ofWrites_concat]
      exact hinv
    · have hneg : (tmpfsWrite s.1 offset bytes alloc).2 < 0 := by
        rcases hres with hres | hres <;> rw [hres] <;> decide
      rw [if_pos hneg, hsame]
      exact h
  | read offset size => exact h
  | openFile flags =>
    have hopen := h.opened flags
    dsimp only [TmpfsCall.run]
    split_ifs at hopen ⊢ with htrunc
    · exact hopen
    · exact hopen

theorem tmpfsRun_inv {calls : List TmpfsCall} (hvalid : ∀ call ∈ calls, call.Valid) :
    TmpfsInv (tmpfsRun calls).1 (.ofWrites (tmpfsRun calls).2) := by
  induction calls using List.reverseRecOn with
  | nil => exact .created
  | append_singleton calls call ih =>
    rw [tmpfsRun, List.foldl_append]
    exact TmpfsCall.run_inv (ih fun c hc => hvalid c (List.mem_append_left _ hc))
      (hvalid call (by simp))

/-- After any sequence of calls the file is the sparse array of the writes since
the last truncation: reads return its slices, the length is the largest end
written, both sizes agree and fit the buffer, and a write that fails changes
nothing. -/
theorem tmpfs_sparse_array (calls : List TmpfsCall) (hvalid : ∀ call ∈ calls, call.Valid) :
    let node := (tmpfsRun calls).1
    let a := SparseArray.ofWrites (tmpfsRun calls).2
    (∀ offset size, offset + size < 4294967296 →
      tmpfsRead node offset size = (((a.slice offset size).length : Int), a.slice offset size)) ∧
    a.len = ((tmpfsRun calls).2.map fun w => w.1 + w.2.length).foldl max 0 ∧
    (∃ fdata, node.privateData = some fdata ∧ node.size = a.len ∧ fdata.size = node.size ∧
      fdata.size ≤ fdata.capacity) ∧
    ∀ offset bytes alloc, bytes ≠ [] → offset + bytes.length < 4294967296 →
      (tmpfsWrite node offset bytes alloc).2 = bytes.length ∨
        ((tmpfsWrite node offset bytes alloc).2 = -28 ∨
          (tmpfsWrite node offset bytes alloc).2 = -12) ∧
          (tmpfsWrite node offset bytes alloc).1 = node := by
  intro node a
  have hinv : TmpfsInv node a := tmpfsRun_inv hvalid
  refine ⟨fun offset size hfit => hinv.read hfit, SparseArray.len_ofWrites _, ?_, ?_⟩
  · obtain ⟨hlen, fdata, hdata, hsize, hcap⟩ := hinv.sizes
    exact ⟨fdata, hdata, hlen, hsize, hcap⟩
  · intro offset bytes alloc hne hfit
    obtain ⟨hres, -⟩ | hfail := hinv.write hne hfit alloc
    · exact Or.inl hres
    · exact Or.inr hfail

/-- A byte at offset 6 leaves a gap that reads as zero, also in the buffer that a
truncation kept. -/
theorem tmpfs_sparse_array_gap :
    tmpfsRead (tmpfsRun [.write 2 [7] (some fun _ => 9), .openFile oTrunc,
      .write 3 [5] none]).1 1 4 = (3, [0, 0, 5]) := by
  have h := (tmpfs_sparse_array [.write 2 [7] (some fun _ => 9), .openFile oTrunc,
    .write 3 [5] none] (by simp [TmpfsCall.Valid])).1 1 4 (by decide)
  rw [h]
  decide

end EnclaveOS
