import EnclaveOS.User.StreamBuffers

/-!
# StreamPosition - a stream is a file with one position

The position of a stream over sequences of calls.  `fseek` empties the read buffer and then
seeks from the offset of the kernel, which is the position only if nothing was read too early.
-/

namespace EnclaveOS

open PageWord

/-- The calls on a stream. -/
inductive StreamCall
  | fread (size nmemb : Word)
  | fgetc
  | fgets (size : Int)
  | fwrite (arg : FwriteArg)
  | fputc (c : Word)
  | fflush
  | ftell
  | fseek (offset : Word) (whence : Int)

/-- What a call returns and stores. -/
inductive StreamAnswer
  | stored (bytes : List Byte)
  | char (c : Option Byte)
  | string (array : Option (List Byte))
  | count (n : Nat)
  | flushed (ok : Bool)
  | position (n : Int)
  deriving DecidableEq

/-- A call of the library. -/
def StreamCall.run (sys : UserSys OpenTmpfs) (s : Stdio OpenTmpfs) :
    StreamCall → StreamAnswer × Stdio OpenTmpfs
  | .fread size nmemb => (EnclaveOS.fread sys size nmemb s).map .stored id
  | .fgetc => (EnclaveOS.fgetc sys s).map .char id
  | .fgets size => (EnclaveOS.fgets sys size s).map .string id
  | .fwrite arg => (EnclaveOS.fwrite sys arg s).map .count id
  | .fputc c => (EnclaveOS.fputc sys c s).map .char id
  | .fflush => (EnclaveOS.fflush sys s).map .flushed id
  | .ftell => (EnclaveOS.ftell sys OpenTmpfs.sysLseek s).map .position id
  | .fseek offset whence =>
    (EnclaveOS.fseek sys OpenTmpfs.sysLseek offset whence s).map .position id

namespace LogicalFile

/-- Where a seek goes. -/
def target (f : LogicalFile) (offset whence : Int) : Option Int :=
  if whence = seekSet then some offset
  else if whence = seekCur then some (f.pos + offset)
  else if whence = seekEnd then some (f.content.len + offset)
  else none

/-- A seek; one that leaves the range of an `off_t` fails and moves nothing. -/
def seek (f : LogicalFile) (offset whence : Int) : Int × LogicalFile :=
  match f.target offset whence with
  | none => (-1, f)
  | some n => if 0 ≤ n ∧ n < 2147483648 then (0, { f with pos := n.toNat }) else (-1, f)

/-- A call on the file. -/
def run (f : LogicalFile) : StreamCall → StreamAnswer × LogicalFile
  | .fread size nmemb =>
    let bytes := f.rest.take (size * nmemb).toNat
    (.stored bytes, f.skip bytes.length)
  | .fgetc => (.char f.rest.head?, f.skip (f.rest.take 1).length)
  | .fgets size =>
    let text := takeLine (size.toNat - 1) f.rest
    (.string (if size ≤ 0 ∨ text = [] ∧ 1 < size then none else some (text ++ [0])),
      f.skip (if size ≤ 0 then 0 else text.length))
  | .fwrite arg => (.count (arg.data.length / arg.size.toNat), f.store arg.data)
  | .fputc c => (.char (some (c.setWidth 8)), f.store [c.setWidth 8])
  | .fflush => (.flushed true, f)
  | .ftell => (.position f.pos, f)
  | .fseek offset whence => (f.seek offset.toInt whence).map .position id

end LogicalFile

section Seeking

variable {other : UserSys OpenTmpfs} {s : Stdio OpenTmpfs} {a : SparseArray Byte} {f : LogicalFile}

/-- The sum of an offset and a signed word. -/
theorem toInt_offset_add {base : Nat} (hbase : base < 2147483648) (offset : Word) :
    (BitVec.ofNat 32 base + offset).toInt =
      if base + offset.toInt < 2147483648 then base + offset.toInt
      else base + offset.toInt - 4294967296 := by
  have hlt := offset.isLt
  rw [BitVec.toInt_eq_toNat_cond, BitVec.toInt_eq_toNat_cond, BitVec.toNat_add, BitVec.toNat_ofNat]
  split_ifs <;> omega

/-- A word is a target in the range of an `off_t`, or negative. -/
def Reaches (v : Word) (n : Int) : Prop :=
  if 0 ≤ n ∧ n < 2147483648 then v.toInt = n else v.toInt < 0

theorem reaches_add {base : Nat} (hbase : base < 2147483648) (offset : Word) :
    Reaches (BitVec.ofNat 32 base + offset) (base + offset.toInt) := by
  have hlow := offset.le_toInt
  have hhigh := offset.toInt_lt
  unfold Reaches
  rw [toInt_offset_add hbase]
  split_ifs <;> omega

/-- The new offset of the kernel is the target of the file. -/
theorem newOffset_of_target {w : OpenTmpfs} (h : TmpfsInv w.node a)
    (hoffset : w.offset < 2147483648) (offset : Word) (whence : Int) :
    (w.newOffset offset whence = none ∧
        (⟨a, w.offset⟩ : LogicalFile).target offset.toInt whence = none) ∨
      ∃ v n, w.newOffset offset whence = some v ∧
        (⟨a, w.offset⟩ : LogicalFile).target offset.toInt whence = some n ∧ Reaches v n := by
  have hsize : w.node.size < 2147483648 := by
    rw [h.sizes.1]
    exact (h.offset_lt le_rfl).2
  unfold LogicalFile.target OpenTmpfs.newOffset
  by_cases hset : whence = seekSet
  · rw [if_pos hset, if_pos hset]
    have hzero := reaches_add (by decide : 0 < 2147483648) offset
    rw [show BitVec.ofNat 32 0 + offset = offset from BitVec.zero_add offset,
      show ((0 : Nat) : Int) + offset.toInt = offset.toInt from Int.zero_add _] at hzero
    exact Or.inr ⟨offset, _, rfl, rfl, hzero⟩
  · rw [if_neg hset, if_neg hset]
    by_cases hcur : whence = seekCur
    · rw [if_pos hcur, if_pos hcur]
      exact Or.inr ⟨_, _, rfl, rfl, reaches_add hoffset offset⟩
    · rw [if_neg hcur, if_neg hcur]
      by_cases hend : whence = seekEnd
      · rw [if_pos hend, if_pos hend, ← h.sizes.1]
        exact Or.inr ⟨_, _, rfl, rfl, reaches_add hsize offset⟩
      · rw [if_neg hend, if_neg hend]
        exact Or.inl ⟨rfl, rfl⟩

/-- `sys_lseek_handler` seeks as the file does. -/
theorem sysLseek_seek {w : OpenTmpfs} (h : TmpfsInv w.node a) (hoffset : w.offset < 2147483648)
    (offset : Word) (whence : Int) :
    (∃ n : Nat, n < 2147483648 ∧
        w.sysLseek w.fd offset whence = ((n : Int), { w with offset := n }) ∧
        (⟨a, w.offset⟩ : LogicalFile).seek offset.toInt whence = (0, ⟨a, n⟩)) ∨
      w.sysLseek w.fd offset whence = (-einval, w) ∧
        (⟨a, w.offset⟩ : LogicalFile).seek offset.toInt whence = (-1, ⟨a, w.offset⟩) := by
  unfold OpenTmpfs.sysLseek LogicalFile.seek
  rw [if_neg (not_not.mpr rfl)]
  obtain ⟨hnew, htarget⟩ | ⟨v, n, hnew, htarget, hreaches⟩ :=
    newOffset_of_target h hoffset offset whence
  · rw [hnew, htarget]
    exact Or.inr ⟨rfl, rfl⟩
  · rw [hnew, htarget]
    dsimp only
    unfold Reaches at hreaches
    by_cases hrange : 0 ≤ n ∧ n < 2147483648
    · rw [if_pos hrange] at hreaches ⊢
      have hv : v.toNat = n.toNat := by
        rw [BitVec.toInt_eq_toNat_cond] at hreaches
        split_ifs at hreaches <;> omega
      rw [if_neg (by omega), hv, hreaches]
      refine Or.inl ⟨n.toNat, by omega, ?_, rfl⟩
      rw [Int.toNat_of_nonneg hrange.1]
    · rw [if_neg hrange] at hreaches ⊢
      rw [if_pos hreaches]
      exact Or.inr ⟨rfl, rfl⟩

theorem LogicalFile.seek_here {a : SparseArray Byte} {pos : Nat} (hpos : pos < 2147483648) :
    (⟨a, pos⟩ : LogicalFile).seek (0 : Word).toInt seekCur = (0, ⟨a, pos⟩) := by
  have htarget : (⟨a, pos⟩ : LogicalFile).target (0 : Word).toInt seekCur = some (pos : Int) :=
    congrArg some (Int.add_zero _)
  have hrange : 0 ≤ (pos : Int) ∧ (pos : Int) < 2147483648 := by omega
  rw [LogicalFile.seek, htarget]
  dsimp only
  rw [if_pos hrange, Int.toNat_natCast]

theorem StreamHolds.ftell (h : StreamHolds s a f)
    (hok : (ftell (OpenTmpfs.toSys other) OpenTmpfs.sysLseek s).2.file.error = false) :
    ∃ a' s', ftell (OpenTmpfs.toSys other) OpenTmpfs.sysLseek s = ((f.pos : Int), s') ∧
      StreamHolds s' a' f := by
  obtain ⟨a', s₁, hflush, h₁, hflushed⟩ := h.flush hok
  have hpos := h₁.pos
  have hinside := h₁.inside
  rw [hflushed.writeBuffer, List.length_nil, Nat.add_zero] at hpos
  have hlseek : s₁.libc.world.sysLseek s₁.libc.world.fd 0 seekCur =
      ((s₁.libc.world.offset : Int), s₁.libc.world) := by
    have hhere := LogicalFile.seek_here (a := a') h₁.offset_lt
    obtain ⟨n, -, hcall, hseek⟩ | ⟨-, hseek⟩ :=
      sysLseek_seek h₁.stored h₁.offset_lt (0 : Word) seekCur
    · rw [hhere] at hseek
      obtain rfl : s₁.libc.world.offset = n := congrArg (fun r => r.2.pos) hseek
      exact hcall
    · rw [hhere] at hseek
      cases hseek
  have hnonneg : ¬(s₁.libc.world.offset : Int) < 0 := by omega
  refine ⟨a', s₁, ?_, h₁⟩
  unfold EnclaveOS.ftell lseek
  rw [hflush]
  dsimp only
  rw [h₁.fd_eq, hlseek]
  dsimp only
  rw [if_neg hnonneg]
  refine Prod.ext ?_ rfl
  dsimp only
  rw [unread, List.length_drop] at hpos
  split_ifs <;> omega

/-- Nothing was read too early, or the target is in the file and does not depend on the position. -/
def SeekKeeps (s : Stdio OpenTmpfs) (offset : Word) (whence : Int) : Prop :=
  unread s = [] ∨ whence = seekSet ∧ 0 ≤ offset.toInt ∨
    whence = seekEnd ∧ 0 ≤ s.libc.world.node.size + offset.toInt ∧
      s.libc.world.node.size + offset.toInt < 2147483648

theorem fseek_error {W : Type*} (sys : UserSys W) (sysLseek : Int → Word → Int → W → Int × W)
    (offset : Word) (whence : Int) (s : Stdio W) :
    (fseek sys sysLseek offset whence s).2.file.error = (fflushWrite sys s).2.file.error := by
  unfold EnclaveOS.fseek
  dsimp only
  split_ifs <;> rfl

/-- The file with its position seeks where the kernel does. -/
theorem seek_same {g : LogicalFile} {offset : Int} {whence : Int} (hcontent : f.content = g.content)
    (hkeeps : f.pos = g.pos ∨ whence = seekSet ∧ 0 ≤ offset ∧ offset < 2147483648 ∨
      whence = seekEnd ∧ 0 ≤ g.content.len + offset ∧ g.content.len + offset < 2147483648) :
    f.seek offset whence = g.seek offset whence := by
  obtain hpos | ⟨hset, hlow, hhigh⟩ | ⟨hend, hlow, hhigh⟩ := hkeeps
  · rw [LogicalFile.ext hcontent hpos]
  · have htarget : ∀ f : LogicalFile, f.seek offset whence = (0, ⟨f.content, offset.toNat⟩) := by
      intro f
      rw [LogicalFile.seek, LogicalFile.target, if_pos hset]
      exact if_pos ⟨hlow, hhigh⟩
    rw [htarget, htarget, hcontent]
  · have htarget : ∀ f : LogicalFile, f.content = g.content →
        f.seek offset whence = (0, ⟨g.content, (g.content.len + offset).toNat⟩) := by
      intro f hf
      subst hend
      rw [LogicalFile.seek, LogicalFile.target, if_neg (by decide), if_neg (by decide), if_pos rfl,
        hf]
      exact if_pos ⟨hlow, hhigh⟩
    rw [htarget f hcontent, htarget g rfl]

/-- A stream with empty buffers. -/
theorem StreamHolds.of_empty {file : File} {libc : Libc OpenTmpfs} (hfd : file.fd = libc.world.fd)
    (hstored : TmpfsInv libc.world.node a) (hoffset : libc.world.offset < 2147483648)
    (hread : file.readBuffer = []) (hstart : file.bufferPos = 0) (hwrite : file.writeBuffer = []) :
    StreamHolds ⟨file, libc⟩ a ⟨a, libc.world.offset⟩ := by
  apply StreamHolds.of_pending hfd hstored hoffset
  · exact hstart.le.trans (Nat.zero_le _)
  · exact List.drop_eq_nil_of_le (by rw [hread]; exact Nat.zero_le _)
  · change _ = LogicalFile.store _ file.writeBuffer
    rw [hwrite]
    rfl

theorem StreamHolds.fseek (h : StreamHolds s a f) {offset : Word} {whence : Int}
    (hkeeps : SeekKeeps s offset whence)
    (hok : (fseek (OpenTmpfs.toSys other) OpenTmpfs.sysLseek offset whence s).2.file.error =
      false) :
    ∃ a' s', fseek (OpenTmpfs.toSys other) OpenTmpfs.sysLseek offset whence s =
        ((f.seek offset.toInt whence).1, s') ∧
      StreamHolds s' a' (f.seek offset.toInt whence).2 := by
  rw [fseek_error] at hok
  obtain ⟨a', s₁, hflush, h₁, hflushed⟩ := h.flush hok
  have hpos := h₁.pos
  have hcontent := h₁.content
  rw [hflushed.writeBuffer, List.length_nil, Nat.add_zero] at hpos
  rw [if_pos hflushed.writeBuffer] at hcontent
  have hunread : unread s₁ = unread s := by
    rw [unread, hflushed.readBuffer, hflushed.bufferPos]
    rfl
  have hsame : f.seek offset.toInt whence =
      (⟨a', s₁.libc.world.offset⟩ : LogicalFile).seek offset.toInt whence := by
    apply seek_same hcontent
    by_cases hnil : unread s = []
    · left
      rw [hunread, hnil] at hpos
      exact hpos
    · obtain hempty | hset | hend := hkeeps
      · exact absurd hempty hnil
      · exact Or.inr (Or.inl ⟨hset.1, hset.2, offset.toInt_lt⟩)
      · have hpending := h.content
        rw [if_pos (h.apart.resolve_left hnil), hcontent] at hpending
        rw [h.stored.sizes.1, ← hpending] at hend
        exact Or.inr (Or.inr hend)
  rw [hsame]
  unfold EnclaveOS.fseek lseek
  rw [hflush]
  dsimp only
  rw [h₁.fd_eq]
  obtain ⟨n, hn, hcall, hseek⟩ | ⟨hcall, hseek⟩ :=
    sysLseek_seek h₁.stored h₁.offset_lt offset whence
  · have hnonneg : ¬(n : Int) < 0 := by omega
    rw [hcall, hseek]
    dsimp only
    rw [if_neg hnonneg]
    dsimp only
    rw [if_neg hnonneg]
    exact ⟨a', _, rfl, StreamHolds.of_empty rfl h₁.stored hn rfl rfl hflushed.writeBuffer⟩
  · have hneg : -einval < 0 := by decide
    rw [hcall, hseek]
    dsimp only
    rw [if_pos hneg]
    dsimp only
    exact ⟨a', _, rfl,
      StreamHolds.of_empty rfl h₁.stored h₁.offset_lt rfl rfl hflushed.writeBuffer⟩

end Seeking

section Runs

variable {other : UserSys OpenTmpfs} {s : Stdio OpenTmpfs} {a : SparseArray Byte} {f : LogicalFile}

/-- The call does not lose the position: reads and writes do not meet in the buffers, and a seek
that starts from the position, or that fails, is made with nothing read too early. -/
def StreamCall.Keeps (s : Stdio OpenTmpfs) : StreamCall → Prop
  | .fread _ _ => s.file.writeBuffer = []
  | .fgetc => s.file.writeBuffer = []
  | .fgets _ => s.file.writeBuffer = []
  | .fwrite _ => unread s = []
  | .fputc _ => unread s = []
  | .fflush => True
  | .ftell => True
  | .fseek offset whence => SeekKeeps s offset whence

/-- One call answers as the file with a position. -/
theorem StreamHolds.run (h : StreamHolds s a f) (call : StreamCall) (hkeeps : call.Keeps s)
    (hok : (call.run (OpenTmpfs.toSys other) s).2.file.error = false) :
    ∃ a' s', call.run (OpenTmpfs.toSys other) s = ((f.run call).1, s') ∧
      StreamHolds s' a' (f.run call).2 := by
  cases call with
  | fread size nmemb =>
    obtain ⟨s', hread, h'⟩ := h.fread other hkeeps size nmemb
    exact ⟨a, s', by rw [StreamCall.run, hread]; rfl, h'⟩
  | fgetc =>
    obtain ⟨s', hget, h', -⟩ := h.fgetc other hkeeps
    exact ⟨a, s', by rw [StreamCall.run, hget]; rfl, h'⟩
  | fgets size =>
    obtain ⟨s', hread, h'⟩ := h.fgets other hkeeps size
    exact ⟨a, s', by rw [StreamCall.run, hread]; rfl, h'⟩
  | fwrite arg =>
    obtain ⟨a', s', hwrite, h'⟩ := h.fwrite hkeeps arg hok
    exact ⟨a', s', by rw [StreamCall.run, hwrite]; rfl, h'⟩
  | fputc c =>
    obtain ⟨a', s', hput, h'⟩ := h.fputc hkeeps c hok
    exact ⟨a', s', by rw [StreamCall.run, hput]; rfl, h'⟩
  | fflush =>
    obtain ⟨a', s', hflush, h', -⟩ := h.flush hok
    exact ⟨a', s', by rw [StreamCall.run, EnclaveOS.fflush, hflush]; rfl, h'⟩
  | ftell =>
    obtain ⟨a', s', htell, h'⟩ := h.ftell hok
    exact ⟨a', s', by rw [StreamCall.run, htell]; rfl, h'⟩
  | fseek offset whence =>
    obtain ⟨a', s', hseek, h'⟩ := h.fseek hkeeps hok
    exact ⟨a', s', by rw [StreamCall.run, hseek]; rfl, h'⟩

/-- The calls one after the other: the answers, and the stream behind them. -/
def runStream (sys : UserSys OpenTmpfs) (s : Stdio OpenTmpfs) :
    List StreamCall → List StreamAnswer × Stdio OpenTmpfs
  | [] => ([], s)
  | call :: calls =>
    let (answer, s) := call.run sys s
    let (answers, s) := runStream sys s calls
    (answer :: answers, s)

/-- The calls on the file. -/
def LogicalFile.runCalls (f : LogicalFile) : List StreamCall → List StreamAnswer × LogicalFile
  | [] => ([], f)
  | call :: calls =>
    let (answer, f) := f.run call
    let (answers, f) := f.runCalls calls
    (answer :: answers, f)

/-- No call of the sequence loses the position, and none sets `error`: all bytes are
transferred. -/
def KeepsAll (sys : UserSys OpenTmpfs) (s : Stdio OpenTmpfs) : List StreamCall → Prop
  | [] => True
  | call :: calls =>
    call.Keeps s ∧ (call.run sys s).2.file.error = false ∧ KeepsAll sys (call.run sys s).2 calls

/-- Every sequence of calls answers as the file with a position. -/
theorem StreamHolds.runStream (h : StreamHolds s a f) (calls : List StreamCall)
    (hkeeps : KeepsAll (OpenTmpfs.toSys other) s calls) :
    ∃ a' s', runStream (OpenTmpfs.toSys other) s calls = ((f.runCalls calls).1, s') ∧
      StreamHolds s' a' (f.runCalls calls).2 := by
  induction calls generalizing s a f with
  | nil => exact ⟨a, s, rfl, h⟩
  | cons call calls ih =>
    obtain ⟨hcall, hok, hrest⟩ := hkeeps
    obtain ⟨a₁, s₁, hrun, h₁⟩ := h.run call hcall hok
    rw [hrun] at hrest
    obtain ⟨a', s', hmore, h'⟩ := ih h₁ hrest
    refine ⟨a', s', ?_, h'⟩
    rw [EnclaveOS.runStream, hrun]
    dsimp only
    rw [hmore]
    rfl

/-- A stream that has just been opened, at the start of a file. -/
structure JustOpened (s : Stdio OpenTmpfs) (a : SparseArray Byte) : Prop where
  file : s.file = File.opened s.libc.world.fd
  stored : TmpfsInv s.libc.world.node a
  offset : s.libc.world.offset = 0

theorem JustOpened.holds (h : JustOpened s a) : StreamHolds s a ⟨a, 0⟩ := by
  have hfile := h.file
  rw [← h.offset]
  exact StreamHolds.of_empty (by rw [hfile]; rfl) h.stored (by rw [h.offset]; decide)
    (by rw [hfile]; rfl) (by rw [hfile]; rfl) (by rw [hfile]; rfl)

/-- In every sequence of calls that do not lose the position, every call returns what it returns on
a file with one position, and the buffers account for the offset of the kernel. -/
theorem stream_position (h : JustOpened s a) (calls : List StreamCall)
    (hkeeps : KeepsAll (OpenTmpfs.toSys other) s calls) :
    (runStream (OpenTmpfs.toSys other) s calls).1 = ((⟨a, 0⟩ : LogicalFile).runCalls calls).1 ∧
      ∃ a', StreamHolds (runStream (OpenTmpfs.toSys other) s calls).2 a'
        ((⟨a, 0⟩ : LogicalFile).runCalls calls).2 := by
  obtain ⟨a', s', hrun, h'⟩ := h.holds.runStream calls hkeeps
  rw [hrun]
  exact ⟨rfl, a', h'⟩

end Runs

/-- A process whose other system calls are refused. -/
def OpenTmpfs.refusing : UserSys OpenTmpfs where
  sysOpen := fun _ _ _ w => (-1, w)
  sysClose := fun _ w => (-1, w)
  sysRead := fun _ _ w => (.error (-1), w)
  sysWrite := fun _ _ w => (-1, w)
  sysBrk := fun _ w => (-1, w)

/-- A stream on a file of three bytes. -/
def threeBytes : Stdio OpenTmpfs where
  file := File.opened 3
  libc := ⟨0, 0, ⟨3, (tmpfsWrite .created 0 [97, 98, 99] (some fun _ => 0)).1, 0, []⟩⟩

theorem threeBytes_justOpened :
    JustOpened threeBytes (SparseArray.empty.write 0 [97, 98, 99]) := by
  have hfit : 0 + ([97, 98, 99] : List Byte).length < 4294967296 := by decide
  have hwritten := TmpfsInv.created.write (List.cons_ne_nil _ _) hfit (some fun _ => 0)
  refine ⟨rfl, (hwritten.resolve_right ?_).2, rfl⟩
  rintro ⟨-, hsame⟩
  have hsize := congrArg TmpfsNode.size hsame
  revert hsize
  decide

/-- A byte is read, two are written from the third on, and all four are read. -/
def mixedCalls : List StreamCall :=
  [.fgetc, .fseek 2 seekSet, .fputc 120, .fputc 121, .ftell, .fseek 0 seekSet, .fread 1 8, .ftell]

theorem stream_position_mixed :
    (runStream (OpenTmpfs.toSys OpenTmpfs.refusing) threeBytes mixedCalls).1 =
        ((⟨SparseArray.empty.write 0 [97, 98, 99], 0⟩ : LogicalFile).runCalls mixedCalls).1 ∧
      ∃ a', StreamHolds (runStream (OpenTmpfs.toSys OpenTmpfs.refusing) threeBytes mixedCalls).2 a'
        ((⟨SparseArray.empty.write 0 [97, 98, 99], 0⟩ : LogicalFile).runCalls mixedCalls).2 :=
  stream_position threeBytes_justOpened mixedCalls
    ⟨rfl, rfl, Or.inr (Or.inl ⟨rfl, by decide⟩), rfl, rfl, rfl, rfl, rfl, trivial, rfl,
      Or.inl rfl, rfl, rfl, rfl, trivial, rfl, trivial⟩

/-- A seek by 0 after a byte was read goes to the end of the file. -/
theorem fseek_cur_unread :
    JustOpened threeBytes (SparseArray.empty.write 0 [97, 98, 99]) ∧
      (runStream (OpenTmpfs.toSys OpenTmpfs.refusing) threeBytes
          [.fgetc, .fseek 0 seekCur, .ftell, .fgetc]).1 =
        [.char (some 97), .position 0, .position 3, .char none] ∧
      ((⟨SparseArray.empty.write 0 [97, 98, 99], 0⟩ : LogicalFile).runCalls
          [.fgetc, .fseek 0 seekCur, .ftell, .fgetc]).1 =
        [.char (some 97), .position 0, .position 1, .char (some 98)] :=
  ⟨threeBytes_justOpened, by decide +kernel, by decide +kernel⟩

end EnclaveOS
