import EnclaveOS.Fs.Fat32
import EnclaveOS.Fs.Tmpfs
import EnclaveOS.Process.SyscallFaults

/-!
# FileBounds - reads and writes stay inside of their file

The four functions that copy file contents clip a request with the 32-bit sum of its offset
and its size.  The counts they receive come through `is_user_pointer`.
-/

namespace EnclaveOS

/-- `initrd_file_t`. -/
structure InitrdFile where
  data : Nat → Byte
  size : Nat

/-- `initrd_read`; the node has no file data, or the buffer is null, in the first case. -/
def initrdRead (file : Option InitrdFile) (offset size : Nat) : Int × List Byte :=
  match file with
  | none => (-1, [])
  | some file =>
    if file.size ≤ offset then (0, [])
    else
      let toRead := if file.size < wrap32 (offset + size) then file.size - offset else size
      (int32 toRead, (List.range toRead).map fun i => file.data (offset + i))

/-- The first part of `tmpfs_write`: the buffer that the bytes go to, or the error. -/
def tmpfsReserve (node : TmpfsNode) (offset size : Nat) (alloc : Option (Nat → Byte)) :
    Except Int TmpfsFileData :=
  match node.privateData with
  | none => .error (-1)
  | some fdata =>
    let newSize := wrap32 (offset + size)
    if tmpfsMaxFileSize < newSize then .error (-28)
    else
      match tmpfsGrow fdata newSize alloc with
      | none => .error (-12)
      | some fdata => .ok fdata

/-- Bytes of a file, at most as many as it has from the offset on. -/
def ReadsInside (fileSize offset : Nat) (byteAt : Nat → Option Byte) (bytes : List Byte) : Prop :=
  bytes.length ≤ fileSize - offset ∧
    ∀ i, ∀ h : i < bytes.length, byteAt (offset + i) = some bytes[i]

/-- A request past the end of the file, or whose sum does not wrap. -/
def RequestFits (fileSize offset size : Nat) : Prop :=
  fileSize ≤ offset ∨ offset + size < 4294967296

section Clip

variable {fileSize offset size : Nat}

/-- The clipped size is right exactly when the sum does not wrap. -/
theorem clip_le_iff (hfile : fileSize < 4294967296) (hoffset : offset < fileSize)
    (hsize : size < 4294967296) :
    (if fileSize < wrap32 (offset + size) then fileSize - offset else size) ≤ fileSize - offset ↔
      RequestFits fileSize offset size := by
  unfold RequestFits
  by_cases hwrap : offset + size < 4294967296
  · rw [show wrap32 (offset + size) = offset + size from Nat.mod_eq_of_lt hwrap]
    split_ifs <;> omega
  · have hlow : wrap32 (offset + size) = offset + size - 4294967296 := by
      unfold wrap32
      omega
    rw [hlow, if_neg (by omega)]
    omega

/-- A copy of the bytes from the offset on. -/
theorem readsInside_map (data : Nat → Byte) (n : Nat) :
    ReadsInside fileSize offset (fun p => some (data p))
      ((List.range n).map fun i => data (offset + i)) ↔ n ≤ fileSize - offset := by
  unfold ReadsInside
  simp

theorem readsInside_nil (byteAt : Nat → Option Byte) : ReadsInside fileSize offset byteAt [] :=
  ⟨Nat.zero_le _, fun _ h => absurd h (Nat.not_lt_zero _)⟩

theorem tmpfsRead_inside {node : TmpfsNode} {fdata : TmpfsFileData} {data : Nat → Byte}
    (hnode : node.privateData = some fdata) (hdata : fdata.data = some data)
    (hfile : fdata.size < 4294967296) (hsize : size < 4294967296) :
    ReadsInside fdata.size offset (fun p => some (data p)) (tmpfsRead node offset size).2 ↔
      RequestFits fdata.size offset size := by
  unfold tmpfsRead
  simp only [hnode, hdata]
  by_cases hpast : fdata.size ≤ offset
  · rw [if_pos hpast]
    exact iff_of_true (readsInside_nil _) (Or.inl hpast)
  · rw [if_neg hpast, readsInside_map]
    exact clip_le_iff hfile (Nat.not_le.mp hpast) hsize

theorem initrdRead_inside {file : InitrdFile} (hfile : file.size < 4294967296)
    (hsize : size < 4294967296) :
    ReadsInside file.size offset (fun p => some (file.data p))
      (initrdRead (some file) offset size).2 ↔ RequestFits file.size offset size := by
  unfold initrdRead
  dsimp only
  by_cases hpast : file.size ≤ offset
  · rw [if_pos hpast]
    exact iff_of_true (readsInside_nil _) (Or.inl hpast)
  · rw [if_neg hpast, readsInside_map]
    exact clip_le_iff hfile (Nat.not_le.mp hpast) hsize

/-- A read whose sum wraps goes on to the end of the cluster chain. -/
theorem fat32Read_inside {disk : Disk} {node : Fat32Node} {data : Fat32Data}
    (hnode : node.privateData = some data) (hfile : node.size < 4294967296)
    (hsize : size < 4294967296) :
    ReadsInside node.size offset (data.byteAt disk) (fat32Read disk node offset size).2 ↔
      RequestFits node.size offset size ∨
        ∃ p, offset ≤ p ∧ p ≤ node.size ∧ data.byteAt disk p = none := by
  by_cases hpast : node.size ≤ offset
  · refine iff_of_true ?_ (Or.inl (Or.inl hpast))
    unfold fat32Read
    rw [hnode]
    dsimp only
    rw [if_pos hpast]
    exact readsInside_nil _
  have hoffset := Nat.not_le.mp hpast
  have hclip := clip_le_iff hfile hoffset hsize
  obtain ⟨⟨hbytes, hle⟩, hstop⟩ := fat32Read_spec disk hnode hoffset size
  generalize (fat32Read disk node offset size).2 = out at hbytes hle hstop ⊢
  generalize (if node.size < wrap32 (offset + size) then node.size - offset else size) = clipped
    at hclip hle hstop
  constructor
  · rintro ⟨hlen, -⟩
    rcases hstop with hfull | hend
    · exact Or.inl (hclip.mp (hfull ▸ hlen))
    · exact Or.inr ⟨offset + out.length, by omega, by omega, hend⟩
  · rintro (hfits | ⟨p, hlo, hhi, hnone⟩)
    · exact ⟨hle.trans (hclip.mpr hfits), hbytes⟩
    · refine ⟨?_, hbytes⟩
      -- the read stops before a byte that cannot be read
      by_contra hlong
      have hread := hbytes (p - offset) (by omega)
      rw [Nat.add_sub_cancel' hlo, hnone] at hread
      cases hread

end Clip

/-- A write whose sum does not wrap, or that is refused: without file data, above the quota,
or without memory to grow. -/
def WriteFits (node : TmpfsNode) (offset size : Nat) (alloc : Option (Nat → Byte)) : Prop :=
  node.privateData = none ∨ offset + size < 4294967296 ∨
    tmpfsMaxFileSize < wrap32 (offset + size) ∨
    ∃ fdata, node.privateData = some fdata ∧ fdata.capacity < wrap32 (offset + size) ∧
      alloc = none

/-- A buffer with room for the wrapped sum. -/
theorem tmpfsGrow_capacity {fdata fdata' : TmpfsFileData} {newSize : Nat}
    {alloc : Option (Nat → Byte)} (hmax : newSize ≤ tmpfsMaxFileSize)
    (h : tmpfsGrow fdata newSize alloc = some fdata') :
    newSize ≤ fdata'.capacity ∧ fdata'.capacity ≤ max fdata.capacity tmpfsMaxFileSize := by
  unfold tmpfsGrow at h
  by_cases hroom : newSize ≤ fdata.capacity
  · rw [if_pos hroom] at h
    cases h
    exact ⟨hroom, le_max_left ..⟩
  · rw [if_neg hroom] at h
    cases alloc with
    | none => cases h
    | some fresh =>
      cases h
      obtain ⟨hge, hle⟩ := grownCapacity_bounds hmax
      exact ⟨hge, hle.trans (le_max_right ..)⟩

theorem tmpfsReserve_inside {node : TmpfsNode} {offset size : Nat} {alloc : Option (Nat → Byte)}
    (hcap : ∀ fdata, node.privateData = some fdata → fdata.capacity < 4294967296) :
    (∀ fdata, tmpfsReserve node offset size alloc = .ok fdata → offset + size ≤ fdata.capacity) ↔
      WriteFits node offset size alloc := by
  unfold tmpfsReserve WriteFits
  cases hnode : node.privateData with
  | none => simp
  | some fdata =>
    dsimp only
    by_cases hmax : tmpfsMaxFileSize < wrap32 (offset + size)
    · rw [if_pos hmax]
      exact iff_of_true nofun (Or.inr (Or.inr (Or.inl hmax)))
    rw [if_neg hmax]
    cases hgrow : tmpfsGrow fdata (wrap32 (offset + size)) alloc with
    | none =>
      refine iff_of_true nofun (Or.inr (Or.inr (Or.inr ⟨fdata, rfl, ?_⟩)))
      unfold tmpfsGrow at hgrow
      by_cases hroom : wrap32 (offset + size) ≤ fdata.capacity
      · rw [if_pos hroom] at hgrow
        cases hgrow
      · rw [if_neg hroom] at hgrow
        cases alloc with
        | none => exact ⟨Nat.not_le.mp hroom, rfl⟩
        | some fresh => cases hgrow
    | some grown =>
      obtain ⟨hge, hle⟩ := tmpfsGrow_capacity (Nat.not_lt.mp hmax) hgrow
      have hold := hcap fdata hnode
      constructor
      · intro h
        have hfits := h grown rfl
        have hquota : tmpfsMaxFileSize < 4294967296 := by decide
        exact Or.inr (Or.inl (by omega))
      · rintro (hnone | hfits | habove | ⟨fdata', hsame, hsmall, rfl⟩)
        · cases hnone
        · rintro _ ⟨⟩
          rwa [show wrap32 (offset + size) = offset + size from Nat.mod_eq_of_lt hfits] at hge
        · exact absurd habove hmax
        · cases hsame
          unfold tmpfsGrow at hgrow
          rw [if_neg (Nat.not_le.mpr hsmall)] at hgrow
          cases hgrow

/-- For every node state, offset and size, the reads of the three file systems stay inside
of their file, and a write inside of its buffer, exactly when the 32-bit sum does not wrap
or the request ends for another reason. -/
theorem file_bounds {offset size : Nat} (hsize : size < 4294967296) :
    (∀ (node : TmpfsNode) (fdata : TmpfsFileData) (data : Nat → Byte),
      node.privateData = some fdata → fdata.data = some data → fdata.size < 4294967296 →
      (ReadsInside fdata.size offset (fun p => some (data p)) (tmpfsRead node offset size).2 ↔
        RequestFits fdata.size offset size)) ∧
    (∀ file : InitrdFile, file.size < 4294967296 →
      (ReadsInside file.size offset (fun p => some (file.data p))
          (initrdRead (some file) offset size).2 ↔
        RequestFits file.size offset size)) ∧
    (∀ (disk : Disk) (node : Fat32Node) (data : Fat32Data), node.privateData = some data →
      node.size < 4294967296 →
      (ReadsInside node.size offset (data.byteAt disk) (fat32Read disk node offset size).2 ↔
        RequestFits node.size offset size ∨
          ∃ p, offset ≤ p ∧ p ≤ node.size ∧ data.byteAt disk p = none)) ∧
    ∀ (node : TmpfsNode) (alloc : Option (Nat → Byte)),
      (∀ fdata, node.privateData = some fdata → fdata.capacity < 4294967296) →
      ((∀ fdata, tmpfsReserve node offset size alloc = .ok fdata →
          offset + size ≤ fdata.capacity) ↔ WriteFits node offset size alloc) :=
  ⟨fun _ _ _ hnode hdata hfile => tmpfsRead_inside hnode hdata hfile hsize,
    fun _ hfile => initrdRead_inside hfile hsize,
    fun _ _ _ hnode hfile => fat32Read_inside hnode hfile hsize,
    fun _ _ hcap => tmpfsReserve_inside hcap⟩

/-- A file of two bytes. -/
def twoBytes : TmpfsNode := ⟨2, some ⟨some fun _ => 0, 2, 2⟩⟩

/-- A read of one byte of two stays inside. -/
theorem file_bounds_sample :
    ReadsInside 2 1 (fun _ => some 0) (tmpfsRead twoBytes 1 1).2 :=
  ((file_bounds (by decide : 1 < 4294967296)).1 twoBytes _ _ rfl rfl (by decide)).mpr
    (Or.inr (by decide))

/-- A sum that wraps is not clipped. -/
theorem tmpfsRead_twoBytes {size : Nat} (h : wrap32 (1 + size) ≤ 2) :
    (tmpfsRead twoBytes 1 size).2.length = size := by
  unfold tmpfsRead twoBytes
  dsimp only
  rw [if_neg (by decide), if_neg (Nat.not_lt.mpr h), List.length_map, List.length_range]

/-- `is_user_pointer` accepts the largest count, and a read of it from offset 1 copies
4294967295 bytes of a file that has two. -/
theorem file_bounds_wrap : isUserPointer 1 4294967295 = true ∧
    ¬ReadsInside 2 1 (fun _ => some 0) (tmpfsRead twoBytes 1 4294967295).2 := by
  have hlen := tmpfsRead_twoBytes (by decide : wrap32 (1 + 4294967295) ≤ 2)
  refine ⟨by decide, fun hinside => ?_⟩
  have hle := hinside.1
  rw [hlen] at hle
  exact absurd hle (by decide)

end EnclaveOS
