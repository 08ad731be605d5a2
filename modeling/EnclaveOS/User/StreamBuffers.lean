import EnclaveOS.User.StdioSeek

/-!
# StreamBuffers - the buffers of a stream and its position

What a stream on a file of tmpfs is for: a file with a position, that reads and writes move on
from.  The code has the offset of the kernel instead, which is ahead of the position by what was
read too early and behind it by what is still to be written.
-/

namespace EnclaveOS

open PageWord

/-- The bytes up to a newline, at most `room` of them. -/
def takeLine : Nat → List Byte → List Byte
  | 0, _ => []
  | _ + 1, [] => []
  | room + 1, c :: bytes => if c = newline then [c] else c :: takeLine room bytes

/-- A file, and the position of the stream. -/
@[ext]
structure LogicalFile where
  content : SparseArray Byte
  pos : Nat

namespace LogicalFile

/-- What is left to read. -/
def rest (f : LogicalFile) : List Byte := f.content.toList.drop f.pos

/-- Bytes are consumed. -/
def skip (f : LogicalFile) (count : Nat) : LogicalFile := { f with pos := f.pos + count }

/-- Bytes are produced. -/
def store (f : LogicalFile) (bytes : List Byte) : LogicalFile :=
  if bytes = [] then f else ⟨f.content.write f.pos bytes, f.pos + bytes.length⟩

end LogicalFile

/-- What was read too early. -/
def unread (s : Stdio OpenTmpfs) : List Byte := s.file.readBuffer.drop s.file.bufferPos

/-- The offset of the kernel is ahead of the position by the unread bytes or behind it by the
pending ones, and the bytes read too early are those of the file. -/
structure StreamHolds (s : Stdio OpenTmpfs) (a : SparseArray Byte) (f : LogicalFile) : Prop where
  fd_eq : s.file.fd = s.libc.world.fd
  stored : TmpfsInv s.libc.world.node a
  offset_lt : s.libc.world.offset < 2147483648
  inside : s.file.bufferPos ≤ s.file.readBuffer.length
  apart : unread s = [] ∨ s.file.writeBuffer = []
  pos : f.pos + (unread s).length = s.libc.world.offset + s.file.writeBuffer.length
  content : f.content =
    if s.file.writeBuffer = [] then a else a.write s.libc.world.offset s.file.writeBuffer
  rest : s.file.writeBuffer = [] → f.rest = unread s ++ a.toList.drop s.libc.world.offset

section Flushing

variable {other : UserSys OpenTmpfs} {s : Stdio OpenTmpfs} {a : SparseArray Byte} {f : LogicalFile}

/-- An offset in the file. -/
theorem TmpfsInv.offset_lt {node : TmpfsNode} (h : TmpfsInv node a) {n : Nat} (hn : n ≤ a.len) :
    wrap32 n = n ∧ n < 2147483648 := by
  obtain ⟨fdata, -, -, hsize, hcap, hmax, -⟩ := h.stored
  have hlimit : tmpfsMaxFileSize = 26214400 := rfl
  exact ⟨Nat.mod_eq_of_lt (by omega), by omega⟩

/-- `sys_write` of a tmpfs file stores all bytes or fails. -/
theorem sysWrite_cases {w : OpenTmpfs} (h : TmpfsInv w.node a) (hoffset : w.offset < 2147483648)
    {bytes : List Byte} (hne : bytes ≠ []) (hshort : bytes.length ≤ fileBufferSize) :
    (∃ w', w.sysWrite w.fd bytes = ((bytes.length : Int), w') ∧ w'.fd = w.fd ∧
      TmpfsInv w'.node (a.write w.offset bytes) ∧ w'.offset = w.offset + bytes.length ∧
      w'.offset < 2147483648) ∨ (w.sysWrite w.fd bytes).1 < 0 := by
  have hlength := List.length_pos_iff.mpr hne
  have hsize : fileBufferSize = 4096 := rfl
  have hfit : w.offset + bytes.length < 4294967296 := by omega
  unfold OpenTmpfs.sysWrite
  rw [if_neg (not_not.mpr rfl)]
  obtain ⟨hret, hstored⟩ | ⟨hret, -⟩ := h.write hne hfit (w.allocs.headD none)
  · left
    obtain ⟨hwrap, hlt⟩ := hstored.offset_lt (le_max_right _ _)
    dsimp only
    rw [hret, if_pos (by omega), Int.toNat_natCast, hwrap]
    exact ⟨_, rfl, rfl, hstored, rfl, hlt⟩
  · right
    dsimp only
    omega

/-- A stream with no pending bytes. -/
structure Flushed (s s' : Stdio OpenTmpfs) : Prop where
  writeBuffer : s'.file.writeBuffer = []
  readBuffer : s'.file.readBuffer = s.file.readBuffer
  bufferPos : s'.file.bufferPos = s.file.bufferPos

/-- A flush moves the pending bytes to the file, or sets `error`. -/
theorem StreamHolds.flush_cases (other : UserSys OpenTmpfs) (h : StreamHolds s a f) :
    (∃ a' s', fflushWrite (OpenTmpfs.toSys other) s = (true, s') ∧ StreamHolds s' a' f ∧
      Flushed s s') ∨
    (fflushWrite (OpenTmpfs.toSys other) s).1 = false ∧
      (fflushWrite (OpenTmpfs.toSys other) s).2.file.error = true := by
  unfold fflushWrite
  by_cases hnil : s.file.writeBuffer = []
  · rw [if_pos (List.length_eq_zero_iff.mpr hnil)]
    exact Or.inl ⟨a, s, rfl, h, hnil, rfl, rfl⟩
  · rw [if_neg (mt List.length_eq_zero_iff.mp hnil)]
    have hunread : unread s = [] := h.apart.resolve_right hnil
    have hcall : (OpenTmpfs.toSys other).sysWrite = OpenTmpfs.sysWrite := rfl
    rw [hcall, h.fd_eq]
    obtain ⟨w', hwrite, hfd, hstored, hoffset, hlt⟩ | hfailed :=
      sysWrite_cases h.stored h.offset_lt hnil s.file.writeFits
    · left
      have hret : ¬((s.file.writeBuffer.length : Int) < 0) := by omega
      rw [hwrite]
      dsimp only
      rw [if_neg hret]
      refine ⟨a.write s.libc.world.offset s.file.writeBuffer, _, rfl, ?_, rfl, rfl, rfl⟩
      have hcontent := h.content
      have hpos := h.pos
      rw [if_neg hnil] at hcontent
      rw [hunread, List.length_nil, Nat.add_zero, ← hoffset] at hpos
      refine ⟨h.fd_eq.trans hfd.symm, hstored, hlt, h.inside, Or.inr rfl, ?_, hcontent,
        fun _ => ?_⟩
      · change f.pos + (unread s).length = w'.offset + 0
        rw [hunread, hpos]
        rfl
      · change f.rest = unread s ++ _
        rw [hunread, LogicalFile.rest, hcontent, hpos]
        rfl
    · right
      generalize s.libc.world.sysWrite s.libc.world.fd s.file.writeBuffer = result at hfailed
      dsimp only
      rw [if_pos hfailed]
      exact ⟨rfl, rfl⟩

/-- A flush that does not fail. -/
theorem StreamHolds.flush (h : StreamHolds s a f)
    (hok : (fflushWrite (OpenTmpfs.toSys other) s).2.file.error = false) :
    ∃ a' s', fflushWrite (OpenTmpfs.toSys other) s = (true, s') ∧ StreamHolds s' a' f ∧
      Flushed s s' := by
  apply (h.flush_cases other).resolve_right
  rintro ⟨-, herror⟩
  rw [hok] at herror
  cases herror

end Flushing

section Reading

variable (other : UserSys OpenTmpfs) {s : Stdio OpenTmpfs} {a : SparseArray Byte} {f : LogicalFile}

theorem slice_eq_take (a : SparseArray Byte) (offset size : Nat) :
    a.slice offset size = (a.toList.drop offset).take size := by
  apply List.ext_getElem?
  intro i
  rw [SparseArray.getElem?_slice, List.getElem?_take, List.getElem?_drop, SparseArray.toList,
    List.getElem?_map]
  by_cases hsize : i < size
  · rw [if_pos hsize]
    by_cases hlen : offset + i < a.len
    · rw [if_pos (by omega), List.getElem?_range hlen]
      rfl
    · rw [if_neg (by omega), List.getElem?_eq_none (by simpa using hlen)]
      rfl
  · rw [if_neg hsize, if_neg (by omega)]

/-- `sys_read` of a tmpfs file delivers what there is. -/
theorem sysRead_eq {w : OpenTmpfs} (h : TmpfsInv w.node a) (hoffset : w.offset < 2147483648) :
    ∃ w', w.sysRead w.fd fileBufferSize =
        (.ok ((a.toList.drop w.offset).take fileBufferSize), w') ∧ w'.fd = w.fd ∧
      w'.node = w.node ∧
      w'.offset = w.offset + ((a.toList.drop w.offset).take fileBufferSize).length ∧
      w'.offset < 2147483648 := by
  have hsize : fileBufferSize = 4096 := rfl
  unfold OpenTmpfs.sysRead
  rw [if_neg (not_not.mpr rfl), h.read (by omega), ← slice_eq_take]
  dsimp only
  rw [if_neg (by omega)]
  by_cases hnone : (a.slice w.offset fileBufferSize).length = 0
  · rw [if_neg (by omega)]
    exact ⟨w, rfl, rfl, rfl, by omega, hoffset⟩
  · have hlen := SparseArray.slice_length a w.offset fileBufferSize
    obtain ⟨hwrap, hlt⟩ := h.offset_lt
      (show w.offset + (a.slice w.offset fileBufferSize).length ≤ a.len by omega)
    rw [if_pos (by omega), Int.toNat_natCast, hwrap]
    exact ⟨_, rfl, rfl, rfl, rfl, hlt⟩

/-- A refill, when there is nothing left of the last one. -/
theorem StreamHolds.fill (h : StreamHolds s a f) (hflushed : s.file.writeBuffer = [])
    (hempty : unread s = []) :
    ∃ s', fillReadBuffer (OpenTmpfs.toSys other) s = (decide (f.rest ≠ []), s') ∧
      StreamHolds s' a f ∧ s'.file.writeBuffer = [] ∧ s'.file.error = s.file.error ∧
      (f.rest ≠ [] → unread s' ≠ []) := by
  have hcall : (OpenTmpfs.toSys other).sysRead = OpenTmpfs.sysRead := rfl
  have hrest := h.rest hflushed
  have hpos := h.pos
  rw [hempty, List.nil_append] at hrest
  rw [hempty, hflushed, List.length_nil] at hpos
  obtain ⟨w', hread, hfd, hnode, hoffset, hlt⟩ := sysRead_eq h.stored h.offset_lt
  rw [← hrest] at hread hoffset
  unfold fillReadBuffer
  rw [hcall, h.fd_eq, hread]
  -- whatever is read is left to read, in the buffer
  have hholds : ∀ file : File, file.fd = s.file.fd → file.writeBuffer = [] →
      file.readBuffer = f.rest.take fileBufferSize → file.bufferPos = 0 →
      StreamHolds ⟨file, { s.libc with world := w' }⟩ a f := by
    intro file hfile hwrite hbuffer hstart
    have hunread : unread ⟨file, { s.libc with world := w' }⟩ = f.rest.take fileBufferSize := by
      rw [unread, hbuffer, hstart, List.drop_zero]
    refine ⟨by rw [hfile, hfd]; exact h.fd_eq, hnode ▸ h.stored, hlt,
      hstart.le.trans (Nat.zero_le _), Or.inr hwrite, ?_, ?_, ?_⟩
    · rw [hunread]
      change _ = w'.offset + file.writeBuffer.length
      rw [hwrite, hoffset, List.length_nil]
      omega
    · rw [if_pos hwrite, h.content, if_pos hflushed]
    · intro _
      change _ = _ ++ a.toList.drop w'.offset
      rw [hunread, hoffset, ← List.drop_drop, ← hrest]
      exact (List.prefix_iff_eq_append.mp (List.take_prefix _ _)).symm
  dsimp only
  cases hleft : f.rest.take fileBufferSize with
  | nil =>
    have hnil : f.rest = [] := (List.take_eq_nil_iff.mp hleft).resolve_left (by decide)
    refine ⟨⟨{ s.file with eof := true, readBuffer := [], bufferPos := 0 }, _⟩, ?_,
      hholds _ rfl hflushed hleft.symm rfl, hflushed, rfl, fun hne => absurd hnil hne⟩
    rw [hnil]
    rfl
  | cons c bytes =>
    have hne : f.rest ≠ [] := by
      intro hnil
      rw [hnil] at hleft
      cases hleft
    refine ⟨⟨{ s.file with readBuffer := c :: bytes, bufferPos := 0 }, _⟩, ?_,
      hholds _ rfl hflushed hleft.symm rfl, hflushed, rfl, fun _ => List.cons_ne_nil c bytes⟩
    rw [decide_eq_true hne]

/-- Either there is a byte to take, or the file has ended. -/
theorem StreamHolds.available (h : StreamHolds s a f) (hflushed : s.file.writeBuffer = []) :
    ∃ s', makeAvailable (OpenTmpfs.toSys other) s = (decide (f.rest ≠ []), s') ∧
      StreamHolds s' a f ∧ s'.file.writeBuffer = [] ∧ s'.file.error = s.file.error ∧
      (f.rest ≠ [] → unread s' ≠ []) := by
  unfold makeAvailable
  by_cases hempty : s.file.readBuffer.length ≤ s.file.bufferPos
  · rw [if_pos hempty]
    exact h.fill other hflushed (List.drop_eq_nil_of_le hempty)
  · have hsome : unread s ≠ [] := mt List.drop_eq_nil_iff.mp hempty
    have hne : f.rest ≠ [] := by
      rw [h.rest hflushed]
      exact List.append_ne_nil_of_left_ne_nil hsome _
    rw [if_neg hempty, decide_eq_true hne]
    exact ⟨s, rfl, h, hflushed, rfl, fun _ => hsome⟩

/-- Bytes are taken from the buffer. -/
theorem StreamHolds.load (h : StreamHolds s a f) (hflushed : s.file.writeBuffer = [])
    (count : Nat) :
    (s.file.load count).1 = (unread s).take count ∧
      (unread s).take count <+: f.rest ∧
      StreamHolds { s with file := (s.file.load count).2 } a
        (f.skip ((unread s).take count).length) := by
  have hrest := h.rest hflushed
  have hpos := h.pos
  have hunread : unread { s with file := (s.file.load count).2 } =
      (unread s).drop ((unread s).take count).length := by
    change s.file.readBuffer.drop (s.file.bufferPos + _) = _
    rw [← List.drop_drop]
    rfl
  have hsplit : (unread s).take count ++ unread { s with file := (s.file.load count).2 } =
      unread s := by
    rw [hunread]
    exact List.prefix_iff_eq_append.mp (List.take_prefix _ _)
  have htaken : f.rest = (unread s).take count ++
      (unread { s with file := (s.file.load count).2 } ++ a.toList.drop s.libc.world.offset) := by
    rw [hrest, ← List.append_assoc, hsplit]
  have hinside : s.file.bufferPos + ((unread s).take count).length ≤ s.file.readBuffer.length := by
    have hbuffer := h.inside
    rw [List.length_take, unread, List.length_drop]
    omega
  refine ⟨rfl, ?_, h.fd_eq, h.stored, h.offset_lt, hinside, Or.inr hflushed, ?_, h.content,
    fun _ => ?_⟩
  · rw [htaken]
    exact List.prefix_append _ _
  · have hlength := congrArg List.length hsplit
    rw [List.length_append] at hlength
    change f.pos + _ + _ = s.libc.world.offset + s.file.writeBuffer.length
    omega
  · rw [LogicalFile.rest, LogicalFile.skip, ← List.drop_drop]
    change f.rest.drop _ = _
    rw [htaken, List.drop_left]

theorem LogicalFile.skip_skip (f : LogicalFile) (m n : Nat) :
    (f.skip m).skip n = f.skip (m + n) := by
  simp [LogicalFile.skip, Nat.add_assoc]

theorem LogicalFile.rest_skip (f : LogicalFile) (n : Nat) : (f.skip n).rest = f.rest.drop n := by
  simp [LogicalFile.rest, LogicalFile.skip, List.drop_drop]

/-- The loop of `fread` takes the next bytes of the file. -/
theorem StreamHolds.freadLoop {rounds wanted : Nat} (hrounds : wanted ≤ rounds)
    (h : StreamHolds s a f) (hflushed : s.file.writeBuffer = []) :
    ∃ s', freadLoop (OpenTmpfs.toSys other) rounds wanted s = (f.rest.take wanted, s') ∧
      StreamHolds s' a (f.skip (f.rest.take wanted).length) ∧ s'.file.error = s.file.error := by
  induction rounds generalizing wanted s f with
  | zero =>
    obtain rfl : wanted = 0 := by omega
    exact ⟨s, rfl, h, rfl⟩
  | succ rounds ih =>
    rw [EnclaveOS.freadLoop]
    by_cases hzero : wanted = 0
    · subst hzero
      exact ⟨s, rfl, h, rfl⟩
    obtain ⟨s₁, havailable, h₁, hflushed₁, herror, hsome⟩ := h.available other hflushed
    rw [if_neg hzero, havailable]
    by_cases hnil : f.rest = []
    · rw [hnil, List.take_nil]
      exact ⟨s₁, rfl, h₁, herror⟩
    · obtain ⟨hbytes, hfront, h₂⟩ := h₁.load hflushed₁ wanted
      have hshort : ((unread s₁).take wanted).length ≤ wanted := List.length_take_le _ _
      have hpos : 0 < ((unread s₁).take wanted).length := by
        have hunread := List.length_pos_iff.mpr (hsome hnil)
        rw [List.length_take]
        omega
      rw [← hbytes] at hfront h₂ hshort hpos
      have htake : f.rest.take wanted = (s₁.file.load wanted).1 ++
          (f.skip (s₁.file.load wanted).1.length).rest.take
            (wanted - (s₁.file.load wanted).1.length) := by
        obtain ⟨tail, htail⟩ := hfront
        rw [LogicalFile.rest_skip, ← htail, List.take_append, List.take_of_length_le hshort,
          List.drop_left]
      have hfewer : wanted - (s₁.file.load wanted).1.length ≤ rounds := by omega
      obtain ⟨s₂, hmore, h₃, herror'⟩ := ih hfewer h₂ hflushed₁
      refine ⟨s₂, ?_, ?_, herror'.trans herror⟩
      · rw [decide_eq_true hnil, htake]
        dsimp only
        rw [if_pos rfl, hmore]
      · rw [htake, List.length_append, ← LogicalFile.skip_skip]
        exact h₃

theorem StreamHolds.fgetc (h : StreamHolds s a f) (hflushed : s.file.writeBuffer = []) :
    ∃ s', fgetc (OpenTmpfs.toSys other) s = (f.rest.head?, s') ∧
      StreamHolds s' a (f.skip (f.rest.take 1).length) ∧ s'.file.writeBuffer = [] ∧
      s'.file.error = s.file.error := by
  obtain ⟨s₁, havailable, h₁, hflushed₁, herror, hsome⟩ := h.available other hflushed
  unfold EnclaveOS.fgetc
  rw [havailable]
  by_cases hnil : f.rest = []
  · rw [hnil, List.take_nil]
    exact ⟨s₁, rfl, h₁, hflushed₁, herror⟩
  · obtain ⟨c, left, hleft⟩ := List.exists_cons_of_ne_nil (hsome hnil)
    obtain ⟨hbytes, ⟨tail, htail⟩, h₂⟩ := h₁.load hflushed₁ 1
    rw [hleft] at htail
    have hhead : f.rest.head? = some c := by rw [← htail]; rfl
    have htake : (f.rest.take 1).length = ((unread s₁).take 1).length := by
      rw [← htail, hleft]
      rfl
    have hbyte : s₁.file.readBuffer.getD s₁.file.bufferPos 0 = c := by
      have hdrop := congrArg List.head? hleft
      rw [unread, List.head?_drop] at hdrop
      rw [List.getD_eq_getElem?_getD, hdrop]
      rfl
    have hfile : (s₁.file.load 1).2 = { s₁.file with bufferPos := s₁.file.bufferPos + 1 } := by
      change { s₁.file with bufferPos := s₁.file.bufferPos + ((unread s₁).take 1).length } = _
      rw [hleft]
      rfl
    rw [← htake, hfile] at h₂
    refine ⟨_, ?_, h₂, hflushed₁, herror⟩
    rw [decide_eq_true hnil]
    dsimp only
    rw [if_pos rfl, hbyte, hhead]

/-- The loop of `fgets` takes the next line. -/
theorem StreamHolds.fgetsLoop (room : Nat) (h : StreamHolds s a f)
    (hflushed : s.file.writeBuffer = []) :
    ∃ s', fgetsLoop (OpenTmpfs.toSys other) room s = (takeLine room f.rest, s') ∧
      StreamHolds s' a (f.skip (takeLine room f.rest).length) ∧ s'.file.error = s.file.error := by
  induction room generalizing s f with
  | zero => exact ⟨s, rfl, h, rfl⟩
  | succ room ih =>
    obtain ⟨s₁, hget, h₁, hflushed₁, herror⟩ := h.fgetc other hflushed
    rw [EnclaveOS.fgetsLoop, hget]
    cases hrest : f.rest with
    | nil =>
      rw [hrest] at h₁
      exact ⟨s₁, rfl, h₁, herror⟩
    | cons c tail =>
      rw [hrest] at h₁
      change StreamHolds s₁ a (f.skip 1) at h₁
      have htail : (f.skip 1).rest = tail := by
        rw [LogicalFile.rest_skip, hrest]
        rfl
      simp only [List.head?_cons, takeLine]
      by_cases hline : c = newline
      · rw [if_pos hline, if_pos hline]
        exact ⟨s₁, rfl, h₁, herror⟩
      · rw [if_neg hline, if_neg hline]
        obtain ⟨s₂, hmore, h₂, herror'⟩ := ih h₁ hflushed₁
        rw [htail] at hmore h₂
        rw [hmore]
        refine ⟨s₂, rfl, ?_, herror'.trans herror⟩
        rw [List.length_cons, Nat.add_comm, ← LogicalFile.skip_skip]
        exact h₂

theorem StreamHolds.fread (h : StreamHolds s a f) (hflushed : s.file.writeBuffer = [])
    (size nmemb : Word) :
    ∃ s', fread (OpenTmpfs.toSys other) size nmemb s =
        (f.rest.take (size * nmemb).toNat, s') ∧
      StreamHolds s' a (f.skip (f.rest.take (size * nmemb).toNat).length) := by
  unfold EnclaveOS.fread
  by_cases hzero : size = 0 ∨ nmemb = 0
  · have htotal : (size * nmemb).toNat = 0 := by
      rcases hzero with hsize | hnmemb
      · simp [hsize]
      · simp [hnmemb]
    rw [if_pos hzero, htotal]
    exact ⟨s, rfl, h⟩
  · rw [if_neg hzero]
    obtain ⟨s', hloop, h', -⟩ := h.freadLoop other le_rfl hflushed
    exact ⟨s', hloop, h'⟩

theorem StreamHolds.fgets (h : StreamHolds s a f) (hflushed : s.file.writeBuffer = [])
    (size : Int) :
    ∃ s', fgets (OpenTmpfs.toSys other) size s =
        (if size ≤ 0 ∨ takeLine (size.toNat - 1) f.rest = [] ∧ 1 < size then none
          else some (takeLine (size.toNat - 1) f.rest ++ [0]), s') ∧
      StreamHolds s' a
        (f.skip (if size ≤ 0 then 0 else (takeLine (size.toNat - 1) f.rest).length)) := by
  unfold EnclaveOS.fgets
  by_cases hsize : size ≤ 0
  · rw [if_pos hsize, if_pos (Or.inl hsize), if_pos hsize]
    exact ⟨s, rfl, h⟩
  · rw [if_neg hsize, if_neg hsize]
    obtain ⟨s', hloop, h', -⟩ := h.fgetsLoop other (size.toNat - 1) hflushed
    refine ⟨s', ?_, h'⟩
    rw [hloop]
    dsimp only
    by_cases hnone : takeLine (size.toNat - 1) f.rest = [] ∧ 1 < size
    · rw [if_pos (Or.inr hnone), if_pos ⟨List.length_eq_zero_iff.mpr hnone.1, hnone.2⟩]
    · rw [if_neg (not_or.mpr ⟨hsize, hnone⟩), if_neg]
      rwa [List.length_eq_zero_iff]

end Reading

section Writing

variable {other : UserSys OpenTmpfs} {s : Stdio OpenTmpfs} {a : SparseArray Byte} {f : LogicalFile}

/-- The flush before a byte is stored. -/
theorem StreamHolds.room_cases (other : UserSys OpenTmpfs) (h : StreamHolds s a f)
    (hread : unread s = []) :
    (∃ a' s', makeRoom (OpenTmpfs.toSys other) s = (true, s') ∧ StreamHolds s' a' f ∧
      unread s' = [] ∧ s'.file.writeBuffer.length < fileBufferSize) ∨
    (makeRoom (OpenTmpfs.toSys other) s).1 = false ∧
      (makeRoom (OpenTmpfs.toSys other) s).2.file.error = true := by
  unfold makeRoom
  by_cases hfull : fileBufferSize ≤ s.file.writeBuffer.length
  · rw [if_pos hfull]
    refine (h.flush_cases other).imp_left ?_
    rintro ⟨a', s', hflush, h', hflushed⟩
    refine ⟨a', s', hflush, h', ?_, ?_⟩
    · rw [unread, hflushed.readBuffer, hflushed.bufferPos]
      exact hread
    · rw [hflushed.writeBuffer]
      decide
  · rw [if_neg hfull]
    exact Or.inl ⟨a, s, rfl, h, hread, Nat.not_le.mp hfull⟩

theorem LogicalFile.store_pos (f : LogicalFile) (bytes : List Byte) :
    (f.store bytes).pos = f.pos + bytes.length := by
  unfold LogicalFile.store
  split_ifs with hnil
  · rw [hnil, List.length_nil, Nat.add_zero]
  · rfl

theorem LogicalFile.store_store (f : LogicalFile) (xs ys : List Byte) :
    (f.store xs).store ys = f.store (xs ++ ys) := by
  unfold LogicalFile.store
  by_cases hxs : xs = []
  · rw [if_pos hxs, hxs, List.nil_append]
  · by_cases hys : ys = []
    · rw [if_pos hys, hys, List.append_nil]
    · have hne : xs ++ ys ≠ [] := List.append_ne_nil_of_left_ne_nil hxs ys
      rw [if_neg hxs, if_neg hys, if_neg hne, SparseArray.write_write, List.length_append,
        Nat.add_assoc]

/-- With nothing read too early, the file is what the kernel has and the pending bytes. -/
theorem StreamHolds.pending (h : StreamHolds s a f) (hread : unread s = []) :
    f = (⟨a, s.libc.world.offset⟩ : LogicalFile).store s.file.writeBuffer := by
  have hpos := h.pos
  rw [hread, List.length_nil, Nat.add_zero] at hpos
  apply LogicalFile.ext
  · rw [h.content, LogicalFile.store]
    split_ifs <;> rfl
  · rw [LogicalFile.store_pos, hpos]

theorem StreamHolds.of_pending (hfd : s.file.fd = s.libc.world.fd)
    (hstored : TmpfsInv s.libc.world.node a) (hoffset : s.libc.world.offset < 2147483648)
    (hinside : s.file.bufferPos ≤ s.file.readBuffer.length) (hread : unread s = [])
    (hf : f = (⟨a, s.libc.world.offset⟩ : LogicalFile).store s.file.writeBuffer) :
    StreamHolds s a f := by
  refine ⟨hfd, hstored, hoffset, hinside, Or.inl hread, ?_, ?_, fun hnil => ?_⟩
  · rw [hread, hf, LogicalFile.store_pos]
    rfl
  · rw [hf, LogicalFile.store]
    split_ifs <;> rfl
  · rw [hf, hnil, hread]
    rfl

/-- As many bytes as there is room for are stored in the buffer. -/
theorem StreamHolds.store (h : StreamHolds s a f) (hread : unread s = []) (bytes : List Byte) :
    StreamHolds { s with file := s.file.store bytes } a
      (f.store (bytes.take (fileBufferSize - s.file.writeBuffer.length))) := by
  refine StreamHolds.of_pending h.fd_eq h.stored h.offset_lt h.inside hread ?_
  rw [h.pending hread, LogicalFile.store_store]
  rfl

/-- The loop of `fwrite` stores all bytes, unless a flush fails. -/
theorem StreamHolds.fwriteLoop {rounds : Nat} {src : List Byte} (hrounds : src.length ≤ rounds)
    (h : StreamHolds s a f) (hread : unread s = [])
    (hok : (fwriteLoop (OpenTmpfs.toSys other) rounds src s).2.file.error = false) :
    ∃ a' s', fwriteLoop (OpenTmpfs.toSys other) rounds src s = ([], s') ∧
      StreamHolds s' a' (f.store src) := by
  induction rounds generalizing src s a f with
  | zero =>
    obtain rfl : src = [] := List.length_eq_zero_iff.mp (by omega)
    exact ⟨a, s, rfl, h⟩
  | succ rounds ih =>
    cases src with
    | nil => exact ⟨a, s, rfl, h⟩
    | cons c src =>
      rw [EnclaveOS.fwriteLoop] at hok ⊢
      obtain ⟨a', s₁, hroom, h₁, hread₁, hlt⟩ | ⟨hfull, herror⟩ := h.room_cases other hread
      · rw [hroom] at hok ⊢
        dsimp only at hok ⊢
        rw [if_pos rfl] at hok ⊢
        have hfewer : ((c :: src).drop (fileBufferSize - s₁.file.writeBuffer.length)).length ≤
            rounds := by
          rw [List.length_drop]
          omega
        obtain ⟨a'', s₂, hmore, h₂⟩ := ih hfewer (h₁.store hread₁ (c :: src)) hread₁ hok
        rw [LogicalFile.store_store, List.take_append_drop] at h₂
        exact ⟨a'', s₂, hmore, h₂⟩
      · generalize makeRoom (OpenTmpfs.toSys other) s = result at hok hfull herror
        dsimp only at hok
        rw [if_neg (by rw [hfull]; decide), herror] at hok
        cases hok

theorem StreamHolds.fwrite (h : StreamHolds s a f) (hread : unread s = []) (arg : FwriteArg)
    (hok : (fwrite (OpenTmpfs.toSys other) arg s).2.file.error = false) :
    ∃ a' s', fwrite (OpenTmpfs.toSys other) arg s = (arg.data.length / arg.size.toNat, s') ∧
      StreamHolds s' a' (f.store arg.data) := by
  have hcovers := arg.covers
  have hfits := arg.fits
  unfold EnclaveOS.fwrite at hok ⊢
  by_cases hzero : arg.size = 0 ∨ arg.nmemb = 0
  · have hnil : arg.data = [] := by
      rw [← List.length_eq_zero_iff, hcovers]
      rcases hzero with hsize | hnmemb
      · simp [hsize]
      · simp [hnmemb]
    rw [if_pos hzero, hnil, List.length_nil, Nat.zero_div]
    exact ⟨a, s, rfl, h⟩
  · have htotal : (arg.size * arg.nmemb).toNat = arg.data.length := by
      rw [BitVec.toNat_mul, ← hcovers]
      exact Nat.mod_eq_of_lt hfits
    rw [if_neg hzero] at hok ⊢
    dsimp only at hok ⊢
    rw [htotal, List.take_length] at hok ⊢
    obtain ⟨a', s', hloop, h'⟩ := h.fwriteLoop le_rfl hread hok
    rw [hloop]
    exact ⟨a', s', rfl, h'⟩

theorem StreamHolds.fputc (h : StreamHolds s a f) (hread : unread s = []) (c : Word)
    (hok : (fputc (OpenTmpfs.toSys other) c s).2.file.error = false) :
    ∃ a' s', fputc (OpenTmpfs.toSys other) c s = (some (c.setWidth 8), s') ∧
      StreamHolds s' a' (f.store [c.setWidth 8]) := by
  unfold EnclaveOS.fputc at hok ⊢
  obtain ⟨a', s₁, hroom, h₁, hread₁, hlt⟩ | ⟨hfull, herror⟩ := h.room_cases other hread
  · rw [hroom]
    have hstored := h₁.store hread₁ [c.setWidth 8]
    rw [List.take_of_length_le (by rw [List.length_singleton]; omega)] at hstored
    exact ⟨a', _, rfl, hstored⟩
  · generalize makeRoom (OpenTmpfs.toSys other) s = result at hok hfull herror
    dsimp only at hok
    rw [if_neg (by rw [hfull]; decide), herror] at hok
    cases hok

end Writing

end EnclaveOS
