import EnclaveOS.User.Stdio

/-!
# StdioReading - what the reading calls take

A stream on a file of the kernel.  The bytes that a reader has left are those in
`read_buffer` from `buffer_pos` on, and then those of the file from the offset on; every
call takes from their front what it returns.
-/

namespace EnclaveOS

open PageWord

variable {W : Type*} {sys : UserSys W} {path : String}

/-- `USER_HEAP_START + USER_HEAP_MAX_SIZE`. -/
def userHeapLimit : Nat := 0x14000000

/-- The flags of `fopen(path, "w")`. -/
def writeFlags : Nat := 0x0001 ||| 0x0040 ||| 0x0200

/-- A kernel that stores every byte written at the offset, reads some of what remains, and
refuses a break above the heap.  A descriptor open on the file has an offset. -/
structure StoresFile (sys : UserSys W) (path : String) where
  content : W → List (BitVec 8)
  writeOffset : W → Int → Option Nat
  readOffset : W → Int → Option Nat
  open_write : ∀ w, 0 ≤ (sys.sysOpen path writeFlags 0o644 w).1 →
    content (sys.sysOpen path writeFlags 0o644 w).2 = [] ∧
      writeOffset (sys.sysOpen path writeFlags 0o644 w).2
        (sys.sysOpen path writeFlags 0o644 w).1 = some 0
  open_read : ∀ w, 0 ≤ (sys.sysOpen path 0 0o644 w).1 →
    content (sys.sysOpen path 0 0o644 w).2 = content w ∧
      readOffset (sys.sysOpen path 0 0o644 w).2 (sys.sysOpen path 0 0o644 w).1 = some 0
  write : ∀ w fd k bytes, writeOffset w fd = some k →
    (sys.sysWrite fd bytes w).1 = bytes.length ∧
      writeOffset (sys.sysWrite fd bytes w).2 fd = some (k + bytes.length) ∧
      content (sys.sysWrite fd bytes w).2 =
        (content w).take k ++ bytes ++ (content w).drop (k + bytes.length)
  read : ∀ w fd k count, readOffset w fd = some k →
    ∃ bytes, (sys.sysRead fd count w).1 = .ok bytes ∧ bytes <+: (content w).drop k ∧
      (0 < count → bytes = [] → (content w).drop k = []) ∧
      readOffset (sys.sysRead fd count w).2 fd = some (k + bytes.length) ∧
      content (sys.sysRead fd count w).2 = content w
  close : ∀ w fd, content (sys.sysClose fd w).2 = content w
  brk : ∀ w top, content (sys.sysBrk top w).2 = content w ∧
    writeOffset (sys.sysBrk top w).2 = writeOffset w ∧
    readOffset (sys.sysBrk top w).2 = readOffset w
  brk_query : ∀ w, (BitVec.ofInt 32 (sys.sysBrk 0 w).1).toNat ≤ userHeapLimit
  brk_limit : ∀ w top, 0 ≤ (sys.sysBrk top w).1 → top.toNat ≤ userHeapLimit

/-- `heap_end` lies in the heap or is not set. -/
def Libc.HeapOk (libc : Libc W) : Prop := libc.heapEnd.toNat ≤ userHeapLimit

/-- Rounding up to a multiple of eight does not lose bytes. -/
private theorem le_aligned (size : Word) (h : size.toNat + 7 < 4294967296) :
    size.toNat ≤ ((size + 7) &&& ~~~7).toNat ∧ ((size + 7) &&& ~~~7).toNat ≤ size.toNat + 7 := by
  have hsplit : ((size + 7) &&& ~~~7) + ((size + 7) &&& 7) = size + 7 := by
    rw [BitVec.add_eq_or_of_and_eq_zero]
    · ext i
      simp only [BitVec.getElem_or, BitVec.getElem_and, BitVec.getElem_not]
      cases (size + 7)[i] <;> cases (7 : Word)[i] <;> rfl
    · ext i
      simp only [BitVec.getElem_and, BitVec.getElem_not, BitVec.getElem_zero]
      cases (size + 7)[i] <;> cases (7 : Word)[i] <;> rfl
  have hsum : (size + 7).toNat = size.toNat + 7 := by
    rw [BitVec.toNat_add]
    exact Nat.mod_eq_of_lt h
  have hlow : ((size + 7) &&& 7).toNat ≤ 7 := by
    rw [BitVec.toNat_and]
    exact Nat.and_le_right
  have hhigh : ((size + 7) &&& ~~~7).toNat ≤ (size + 7).toNat := by
    rw [BitVec.toNat_and]
    exact Nat.and_le_left
  have hvalue := congrArg BitVec.toNat hsplit
  rw [BitVec.toNat_add, hsum] at hvalue
  generalize ((size + 7) &&& ~~~7).toNat = high at *
  generalize ((size + 7) &&& 7).toNat = low at *
  omega

namespace StoresFile

variable (disk : StoresFile sys path)

/-- The file and its descriptors are as they were. -/
structure Keeps (w w' : W) : Prop where
  content : disk.content w' = disk.content w
  writeOffset : disk.writeOffset w' = disk.writeOffset w
  readOffset : disk.readOffset w' = disk.readOffset w

theorem keeps_refl (w : W) : disk.Keeps w w := ⟨rfl, rfl, rfl⟩

variable {disk} in
theorem Keeps.trans {w w' w'' : W} (h : disk.Keeps w w') (h' : disk.Keeps w' w'') :
    disk.Keeps w w'' :=
  ⟨h'.content.trans h.content, h'.writeOffset.trans h.writeOffset,
    h'.readOffset.trans h.readOffset⟩

theorem keeps_brk (w : W) (top : Word) : disk.Keeps w (sys.sysBrk top w).2 :=
  ⟨(disk.brk w top).1, (disk.brk w top).2.1, (disk.brk w top).2.2⟩

theorem heapInit_spec {libc : Libc W} (h : libc.HeapOk) :
    (heapInitIfNeeded sys libc).HeapOk ∧
      disk.Keeps libc.world (heapInitIfNeeded sys libc).world := by
  unfold heapInitIfNeeded
  split_ifs with hzero
  · exact ⟨disk.brk_query libc.world, disk.keeps_brk libc.world 0⟩
  · exact ⟨h, disk.keeps_refl _⟩

/-- A block has the size asked for, and lies in the heap. -/
theorem malloc_spec {size : Word} {libc : Libc W} (hsize : size.toNat < 2147483648)
    (h : libc.HeapOk) :
    (malloc sys size libc).2.HeapOk ∧ disk.Keeps libc.world (malloc sys size libc).2.world ∧
      ∀ block, (malloc sys size libc).1 = some block →
        block.length = size.toNat ∧ size.toNat ≤ userHeapLimit := by
  obtain ⟨hheap, hkeeps⟩ := disk.heapInit_spec h
  have haligned := le_aligned size (by omega)
  unfold malloc
  split_ifs with hzero
  · exact ⟨h, disk.keeps_refl _, by simp⟩
  · generalize heapInitIfNeeded sys libc = start at *
    generalize ((size + 7) &&& ~~~7) = aligned at *
    have hworld := hkeeps.trans (disk.keeps_brk start.world
      (start.heapEnd + (mallocHdrSize + aligned)))
    dsimp only
    split_ifs with hrefused
    · exact ⟨hheap, hworld, by simp⟩
    · have hlimit := disk.brk_limit _ _ (not_lt.mp hrefused)
      refine ⟨hlimit, hworld, ?_⟩
      intro block hblock
      simp only [Option.some.injEq] at hblock
      rw [← hblock, List.length_replicate]
      refine ⟨rfl, ?_⟩
      unfold Libc.HeapOk at hheap
      unfold userHeapLimit mallocHdrSize at *
      bv_omega

/-- The bytes that fit the new size are copied. -/
theorem realloc_spec (block : List (BitVec 8)) {size : Word} {libc : Libc W}
    (hsize : size.toNat < 2147483648) (h : libc.HeapOk) :
    (realloc sys block size libc).2.HeapOk ∧
      disk.Keeps libc.world (realloc sys block size libc).2.world ∧
      ∀ moved, (realloc sys block size libc).1 = some moved →
        moved.length = size.toNat ∧ size.toNat ≤ userHeapLimit ∧
          ∀ k, k ≤ block.length → k ≤ size.toNat → moved.take k = block.take k := by
  obtain ⟨hheap, hkeeps, hblock⟩ := disk.malloc_spec hsize h
  unfold realloc
  split_ifs with hzero
  · exact ⟨h, disk.keeps_refl _, by simp⟩
  · dsimp only
    cases hfresh : (malloc sys size libc).1 with
    | none => exact ⟨hheap, hkeeps, by simp⟩
    | some fresh =>
      obtain ⟨hlength, hlimit⟩ := hblock fresh hfresh
      refine ⟨hheap, hkeeps, ?_⟩
      intro moved hmoved
      simp only [Option.some.injEq] at hmoved
      rw [← hmoved]
      refine ⟨?_, hlimit, ?_⟩
      · simp only [List.length_append, List.length_take, List.length_drop]
        omega
      · intro k hk hsmall
        rw [List.take_append_of_le_length (by rw [List.length_take]; omega), List.take_take,
          Nat.min_eq_left hsmall]

/-- What a reader has left. -/
def unread (s : Stdio W) : List (BitVec 8) :=
  s.file.readBuffer.drop s.file.bufferPos ++
    (disk.content s.libc.world).drop ((disk.readOffset s.libc.world s.file.fd).getD 0)

/-- A stream that reads the file. -/
structure Reading (s : Stdio W) : Prop where
  isOpen : ∃ k, disk.readOffset s.libc.world s.file.fd = some k
  atEnd : s.file.eof = true → disk.unread s = []
  heap : s.libc.HeapOk

variable {disk} in
/-- A reader does not see what leaves the file and its descriptors alone. -/
theorem Reading.of_keeps {s : Stdio W} (h : disk.Reading s) (libc : Libc W)
    (hkeeps : disk.Keeps s.libc.world libc.world) (hheap : libc.HeapOk) :
    disk.Reading { s with libc := libc } ∧ disk.unread { s with libc := libc } = disk.unread s := by
  have hunread : disk.unread { s with libc := libc } = disk.unread s := by
    simp only [unread, hkeeps.content, hkeeps.readOffset]
  refine ⟨⟨?_, ?_, hheap⟩, hunread⟩
  · simpa only [hkeeps.readOffset] using h.isOpen
  · intro heof
    rw [hunread]
    exact h.atEnd heof

/-- A refill takes bytes from the file to the buffer, and stops only at the end. -/
theorem fillReadBuffer_spec {s : Stdio W} (h : disk.Reading s)
    (hempty : s.file.readBuffer.length ≤ s.file.bufferPos) :
    disk.Reading (fillReadBuffer sys s).2 ∧
      disk.unread (fillReadBuffer sys s).2 = disk.unread s ∧
      ((fillReadBuffer sys s).1 = true → (fillReadBuffer sys s).2.file.bufferPos <
        (fillReadBuffer sys s).2.file.readBuffer.length) ∧
      ((fillReadBuffer sys s).1 = false → (fillReadBuffer sys s).2.file.eof = true) := by
  obtain ⟨k, hk⟩ := h.isOpen
  obtain ⟨bytes, hret, hprefix, hend, hoffset, hcontent⟩ :=
    disk.read s.libc.world s.file.fd k fileBufferSize hk
  have hunread : disk.unread s = (disk.content s.libc.world).drop k := by
    simp [unread, hk, List.drop_eq_nil_of_le hempty]
  unfold fillReadBuffer
  dsimp only
  rw [hret]
  cases bytes with
  | nil =>
    have hnothing := hend (by simp [fileBufferSize]) rfl
    refine ⟨⟨⟨_, hoffset⟩, ?_, h.heap⟩, ?_, by simp, by simp⟩
    · intro _
      simp [unread, hoffset, hcontent, hnothing]
    · rw [hunread]
      simp [unread, hoffset, hcontent]
  | cons c bytes =>
    obtain ⟨tail, htail⟩ := hprefix
    have hunread' : (c :: bytes) ++ (disk.content s.libc.world).drop (k + (c :: bytes).length) =
        (disk.content s.libc.world).drop k := by
      rw [← List.drop_drop, ← htail, List.drop_left]
    refine ⟨⟨⟨_, hoffset⟩, ?_, h.heap⟩, ?_, by simp, by simp⟩
    · intro heof
      have hnil := h.atEnd heof
      rw [hunread, ← htail] at hnil
      simp at hnil
    · rw [hunread, ← hunread']
      simp [unread, hoffset, hcontent]

/-- Either there is a byte to take, or the file has ended. -/
theorem makeAvailable_spec {s : Stdio W} (h : disk.Reading s) :
    disk.Reading (makeAvailable sys s).2 ∧
      disk.unread (makeAvailable sys s).2 = disk.unread s ∧
      ((makeAvailable sys s).1 = true → (makeAvailable sys s).2.file.bufferPos <
        (makeAvailable sys s).2.file.readBuffer.length) ∧
      ((makeAvailable sys s).1 = false → (makeAvailable sys s).2.file.eof = true) := by
  unfold makeAvailable
  split_ifs with hempty
  · exact disk.fillReadBuffer_spec h hempty
  · exact ⟨h, rfl, fun _ => Nat.lt_of_not_le hempty, by simp⟩

/-- Bytes taken from the buffer are the first of those left. -/
theorem reading_load {s : Stdio W} (h : disk.Reading s) (count : Nat) :
    disk.Reading { s with file := (s.file.load count).2 } ∧
      disk.unread s = (s.file.load count).1 ++
        disk.unread { s with file := (s.file.load count).2 } := by
  have hunread : disk.unread s = (s.file.load count).1 ++
      disk.unread { s with file := (s.file.load count).2 } := by
    simp only [unread, File.load, ← List.append_assoc]
    congr 1
    rw [← List.drop_drop, List.length_take]
    generalize s.file.readBuffer.drop s.file.bufferPos = rest
    conv_lhs => rw [← List.take_append_drop (min count rest.length) rest]
    rw [← List.take_eq_take_min]
  refine ⟨⟨h.isOpen, ?_, h.heap⟩, hunread⟩
  intro heof
  have hnil := h.atEnd heof
  rw [hunread] at hnil
  exact (List.append_eq_nil_iff.mp hnil).2

theorem fgetc_spec {s : Stdio W} (h : disk.Reading s) :
    disk.Reading (fgetc sys s).2 ∧
      disk.unread s = (fgetc sys s).1.toList ++ disk.unread (fgetc sys s).2 ∧
      ((fgetc sys s).1 = none → disk.unread (fgetc sys s).2 = []) := by
  obtain ⟨hreading, hunread, havailable, hend⟩ := disk.makeAvailable_spec h
  unfold fgetc
  dsimp only
  split_ifs with hok
  · have hlt := havailable hok
    obtain ⟨hloaded, htaken⟩ := disk.reading_load hreading 1
    -- the buffer holds the byte that is taken
    have hone : ((makeAvailable sys s).2.file.load 1).1 =
        [(makeAvailable sys s).2.file.readBuffer.getD (makeAvailable sys s).2.file.bufferPos 0] := by
      simp only [File.load]
      rw [List.drop_eq_getElem_cons hlt, List.take_succ_cons, List.take_zero,
        List.getD_eq_getElem?_getD, List.getElem?_eq_getElem hlt, Option.getD_some]
    have hfile : ((makeAvailable sys s).2.file.load 1).2 =
        { (makeAvailable sys s).2.file with
          bufferPos := (makeAvailable sys s).2.file.bufferPos + 1 } := by
      have hlength := congrArg List.length hone
      simp only [File.load, List.length_singleton] at hlength ⊢
      rw [hlength]
    rw [hfile] at hloaded htaken
    rw [hone, hunread] at htaken
    exact ⟨hloaded, htaken, by simp⟩
  · refine ⟨hreading, ?_, ?_⟩
    · simpa using hunread.symm
    · intro _
      exact hreading.atEnd (hend (by simpa using hok))

/-- The loop of `fread` stops early only at the end. -/
theorem freadLoop_spec {rounds wanted : Nat} {s : Stdio W} (hrounds : wanted ≤ rounds)
    (h : disk.Reading s) :
    disk.Reading (freadLoop sys rounds wanted s).2 ∧
      disk.unread s = (freadLoop sys rounds wanted s).1 ++
        disk.unread (freadLoop sys rounds wanted s).2 ∧
      ((freadLoop sys rounds wanted s).1.length < wanted →
        disk.unread (freadLoop sys rounds wanted s).2 = []) := by
  induction rounds generalizing wanted s with
  | zero => exact ⟨h, rfl, by omega⟩
  | succ rounds ih =>
    unfold freadLoop
    split_ifs with hzero
    · exact ⟨h, rfl, by omega⟩
    · obtain ⟨hreading, hunread, havailable, hend⟩ := disk.makeAvailable_spec h
      dsimp only
      split_ifs with hok
      · have hlt := havailable hok
        obtain ⟨hloaded, htaken⟩ := disk.reading_load hreading wanted
        have hsome : 0 < ((makeAvailable sys s).2.file.load wanted).1.length := by
          simp only [File.load, List.length_take, List.length_drop]
          omega
        obtain ⟨hreading', hmore, hend'⟩ := @ih
          (wanted - ((makeAvailable sys s).2.file.load wanted).1.length) _ (by omega) hloaded
        refine ⟨hreading', ?_, ?_⟩
        · rw [← hunread, htaken, List.append_assoc]
          exact congrArg _ hmore
        · intro hshort
          apply hend'
          rw [List.length_append] at hshort
          omega
      · refine ⟨hreading, hunread.symm, ?_⟩
        intro _
        exact hreading.atEnd (hend (by simpa using hok))

theorem fread_spec (nmemb : Word) {s : Stdio W} (h : disk.Reading s) :
    disk.Reading (fread sys 1 nmemb s).2 ∧
      disk.unread s = (fread sys 1 nmemb s).1 ++ disk.unread (fread sys 1 nmemb s).2 ∧
      ((fread sys 1 nmemb s).1.length < nmemb.toNat →
        disk.unread (fread sys 1 nmemb s).2 = []) := by
  unfold fread
  split_ifs with hzero
  · refine ⟨h, rfl, ?_⟩
    obtain hone | hnone := hzero
    · simp at hone
    · simp [hnone]
  · have hbytes : (1 : Word) * nmemb = nmemb := BitVec.one_mul nmemb
    rw [hbytes]
    exact disk.freadLoop_spec le_rfl h

/-- The loop of `fgets` stores nothing only at the end. -/
theorem fgetsLoop_spec (room : Nat) {s : Stdio W} (h : disk.Reading s) :
    disk.Reading (fgetsLoop sys room s).2 ∧
      disk.unread s = (fgetsLoop sys room s).1 ++ disk.unread (fgetsLoop sys room s).2 ∧
      (0 < room → (fgetsLoop sys room s).1 = [] →
        disk.unread (fgetsLoop sys room s).2 = []) := by
  induction room generalizing s with
  | zero => exact ⟨h, rfl, by omega⟩
  | succ room ih =>
    obtain ⟨hreading, hunread, hend⟩ := disk.fgetc_spec h
    unfold fgetsLoop
    cases hc : fgetc sys s with
    | mk c s' =>
      rw [hc] at hreading hunread hend
      cases c with
      | none => exact ⟨hreading, hunread, fun _ _ => hend rfl⟩
      | some c =>
        dsimp only
        split_ifs with hline
        · exact ⟨hreading, hunread, by simp⟩
        · obtain ⟨hreading', hmore, -⟩ := ih hreading
          refine ⟨hreading', ?_, by simp⟩
          rw [hunread, hmore]
          rfl

/-- A text without NUL comes back as the string in the array. -/
theorem fgets_spec (size : Int) {s : Stdio W} (h : disk.Reading s)
    (hnul : 0#8 ∉ disk.unread s) :
    disk.Reading (fgets sys size s).2 ∧
      disk.unread s = cString ((fgets sys size s).1.getD []) ++
        disk.unread (fgets sys size s).2 ∧
      (0 < size → (fgets sys size s).1 = none → disk.unread (fgets sys size s).2 = []) := by
  obtain ⟨hreading, hunread, hend⟩ := disk.fgetsLoop_spec (size.toNat - 1) h
  unfold fgets
  split_ifs with hsize
  · exact ⟨h, rfl, by omega⟩
  · dsimp only
    split_ifs with hnone
    · have hnil := List.length_eq_zero_iff.mp hnone.1
      refine ⟨hreading, ?_, fun _ _ => hend (by omega) hnil⟩
      rw [hunread, hnil]
      rfl
    · have htext : 0#8 ∉ (fgetsLoop sys (size.toNat - 1) s).1 := by
        intro hmem
        apply hnul
        rw [hunread]
        exact List.mem_append_left _ hmem
      have hstring : cString ((fgetsLoop sys (size.toNat - 1) s).1 ++ [0]) =
          (fgetsLoop sys (size.toNat - 1) s).1 := cString_append_nul htext []
      refine ⟨hreading, ?_, by simp⟩
      rw [Option.getD_some, hstring]
      exact hunread

end StoresFile

/-- The block holds the size it is said to have, and lies in the heap. -/
structure LineBuf.Sound (line : LineBuf) : Prop where
  pos : 0 < line.n.toNat
  le_length : line.n.toNat ≤ line.block.length
  inHeap : line.block.length ≤ userHeapLimit

theorem take_succ_set {block : List (BitVec 8)} {pos : Nat} (h : pos < block.length)
    (c : BitVec 8) : (block.set pos c).take (pos + 1) = block.take pos ++ [c] := by
  rw [List.take_succ_eq_append_getElem (by simpa using h), List.take_set_of_le le_rfl,
    List.getElem_set_self]

namespace StoresFile

variable (disk : StoresFile sys path)

/-- The block keeps the characters stored, and has room for one more and the terminator. -/
theorem growLine_spec {pos : Nat} {line : LineBuf} {s : Stdio W} (hline : line.Sound)
    (hpos : pos < line.n.toNat) (h : disk.Reading s) :
    disk.Reading { s with libc := (growLine sys pos line s.libc).2.2 } ∧
      disk.unread { s with libc := (growLine sys pos line s.libc).2.2 } = disk.unread s ∧
      ((growLine sys pos line s.libc).1 = true →
        (growLine sys pos line s.libc).2.1.Sound ∧
        pos + 1 < (growLine sys pos line s.libc).2.1.n.toNat ∧
        (growLine sys pos line s.libc).2.1.block.take pos = line.block.take pos) := by
  have hbound : line.n.toNat ≤ userHeapLimit := hline.le_length.trans hline.inHeap
  have hdouble : (line.n * 2).toNat = line.n.toNat * 2 := by
    unfold userHeapLimit at hbound
    bv_omega
  unfold growLine
  split_ifs with hfull
  · have hsize : (line.n * 2).toNat < 2147483648 := by
      unfold userHeapLimit at hbound
      omega
    obtain ⟨hheap, hkeeps, hmoved⟩ := disk.realloc_spec line.block hsize h.heap
    dsimp only
    cases hblock : (realloc sys line.block (line.n * 2) s.libc).1 with
    | none =>
      obtain ⟨hreading, hunread⟩ := h.of_keeps
        { (realloc sys line.block (line.n * 2) s.libc).2 with errno := enomem } hkeeps hheap
      exact ⟨hreading, hunread, by simp⟩
    | some block =>
      obtain ⟨hreading, hunread⟩ := h.of_keeps _ hkeeps hheap
      obtain ⟨hlength, hlimit, hcopy⟩ := hmoved block hblock
      have hwithin := hline.le_length
      refine ⟨hreading, hunread, fun _ => ⟨⟨?_, ?_, ?_⟩, ?_, ?_⟩⟩
      · dsimp only
        omega
      · exact hlength.ge
      · dsimp only
        omega
      · dsimp only
        omega
      · exact hcopy pos (by omega) (by omega)
  · exact ⟨h, rfl, fun _ => ⟨hline, Nat.lt_of_not_le hfull, rfl⟩⟩

/-- What a call of `getline` that does not run out of memory leaves, after `before` was
stored: the end of the file, or a text moved from the stream to the line. -/
def LineTaken (s : Stdio W) (before : List (BitVec 8))
    (after : GetlineReturn × LineBuf × Stdio W) : Prop :=
  disk.Reading after.2.2 ∧ ∃ text, disk.unread s = text ++ disk.unread after.2.2 ∧
    ((after.1 = .endOfFile ∧ before ++ text = [] ∧ disk.unread after.2.2 = []) ∨
      (after.1 = .length (before ++ text).length ∧
        after.2.1.block.take (before ++ text).length = before ++ text))

/-- A position is below 2^32, so the rounds do not run out. -/
theorem getlineLoop_spec {rounds pos : Nat} {line : LineBuf} {s : Stdio W}
    (hrounds : 4294967296 ≤ rounds + pos) (hline : line.Sound) (hpos : pos < line.n.toNat)
    (h : disk.Reading s) (hmemory : (getlineLoop sys rounds pos line s).1 ≠ .noMemory) :
    disk.LineTaken s (line.block.take pos) (getlineLoop sys rounds pos line s) := by
  induction rounds generalizing pos line s with
  | zero =>
    have hword := line.n.isLt
    omega
  | succ rounds ih =>
    have hwithin := hline.le_length
    have hbefore : (line.block.take pos).length = pos := by
      rw [List.length_take]
      omega
    obtain ⟨hreading, hunread, hend⟩ := disk.fgetc_spec h
    unfold getlineLoop at hmemory ⊢
    cases hc : fgetc sys s with
    | mk c s' =>
      rw [hc] at hreading hunread hend hmemory
      cases c with
      | none =>
        refine ⟨hreading, [], hunread, ?_⟩
        dsimp only
        split_ifs with hzero
        · exact Or.inl ⟨rfl, by simp [hzero], hend rfl⟩
        · right
          rw [List.append_nil, hbefore]
          exact ⟨rfl, List.take_set_of_le le_rfl⟩
      | some c =>
        obtain ⟨hreading', hunread', hgrown⟩ := disk.growLine_spec hline hpos hreading
        dsimp only at hmemory hreading' hunread' hgrown ⊢
        split_ifs at hmemory ⊢ with hok hnewline
        · -- the line ends here
          obtain ⟨hsound, hroom, hkept⟩ := hgrown hok
          have hfits := hsound.le_length
          have hstored : ((growLine sys pos line s'.libc).2.1.block.set pos c).take (pos + 1) =
              (growLine sys pos line s'.libc).2.1.block.take pos ++ [c] :=
            take_succ_set (by omega) c
          refine ⟨hreading', [c], ?_, ?_⟩
          · rw [hunread, hunread']
            rfl
          · right
            rw [List.length_append, hbefore, List.length_singleton]
            refine ⟨rfl, ?_⟩
            simp only [LineBuf.finish]
            rw [List.take_set_of_le le_rfl, hstored, hkept]
        · -- the line goes on
          obtain ⟨hsound, hroom, hkept⟩ := hgrown hok
          have hfits := hsound.le_length
          have hstored : ((growLine sys pos line s'.libc).2.1.block.set pos c).take (pos + 1) =
              (growLine sys pos line s'.libc).2.1.block.take pos ++ [c] :=
            take_succ_set (by omega) c
          obtain ⟨hreading'', text, htext, hresult⟩ := @ih (pos + 1)
            ⟨(growLine sys pos line s'.libc).2.1.block.set pos c,
              (growLine sys pos line s'.libc).2.1.n⟩ _ (by omega)
            ⟨hsound.pos, by simpa using hsound.le_length, by simpa using hsound.inHeap⟩
            hroom hreading' hmemory
          dsimp only at hresult
          rw [hstored, hkept, List.append_assoc, List.singleton_append] at hresult
          refine ⟨hreading'', c :: text, ?_, hresult⟩
          rw [hunread, ← hunread', htext]
          rfl
        · exact absurd rfl hmemory

end StoresFile

end EnclaveOS
