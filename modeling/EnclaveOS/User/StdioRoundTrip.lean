import EnclaveOS.User.StdioOrder
import EnclaveOS.User.StdioReading

/-!
# StdioRoundTrip - what is written is read back

A file written through one stream, closed, and read through another.
-/

namespace EnclaveOS

open PageWord Transfer

variable {W : Type*} {sys : UserSys W} {path : String}

/-- A call of `fwrite` or `fputc`. -/
inductive WriteCall
  | fwrite (arg : FwriteArg)
  | fputc (c : Word)

namespace WriteCall

def toOutCall : WriteCall → OutCall
  | fwrite arg => .fwrite arg
  | fputc c => .fputc c

variable (sys) in
def run (s : Stdio W) (call : WriteCall) : Stdio W := call.toOutCall.run sys s

def bytes (call : WriteCall) : List (BitVec 8) := call.toOutCall.produces

theorem run_total {fd : Int} (sink : Sink sys fd) {s : Stdio W} (call : WriteCall)
    (h : sink.Ready s) : sink.total (run sys s call) = sink.total s ++ call.bytes := by
  apply (call.toOutCall.run_total_iff sink h).mpr
  cases call <;> simp [toOutCall, OutCall.KeepsOrder, OutCall.direct]

end WriteCall

/-- A call that reads; the lines given to `getline` are `NULL` or hold a byte. -/
inductive ReadCall
  | fread (nmemb : Word)
  | fgetc
  | fgets (size : Int)
  | getline (line : Option {line : LineBuf // line.Sound})

/-- What a call that reads returns and stores. -/
inductive ReadAnswer
  | fread (stored : List (BitVec 8))
  | fgetc (c : Option (BitVec 8))
  | fgets (array : Option (List (BitVec 8)))
  | getline (ret : GetlineReturn) (line : Option LineBuf)

namespace ReadCall

variable (sys) in
def run (s : Stdio W) : ReadCall → ReadAnswer × Stdio W
  | fread nmemb =>
    let (stored, s) := EnclaveOS.fread sys 1 nmemb s
    (.fread stored, s)
  | fgetc =>
    let (c, s) := EnclaveOS.fgetc sys s
    (.fgetc c, s)
  | fgets size =>
    let (array, s) := EnclaveOS.fgets sys size s
    (.fgets array, s)
  | getline line =>
    let (ret, line, s) := EnclaveOS.getline sys (line.map Subtype.val) s
    (.getline ret line, s)

def isFgets : ReadCall → Bool
  | fgets _ => true
  | _ => false

end ReadCall

namespace ReadAnswer

/-- The bytes returned: for `fgets` the string, for `getline` as many as it says. -/
def bytes : ReadAnswer → List (BitVec 8)
  | fread stored => stored
  | fgetc c => c.toList
  | fgets array => cString (array.getD [])
  | getline (.length count) (some line) => line.block.take count
  | getline _ _ => []

/-- The answer says that the file has ended. -/
def reportsEnd : ReadCall → ReadAnswer → Bool
  | .fread nmemb, fread stored => decide (stored.length < nmemb.toNat)
  | .fgetc, fgetc c => c.isNone
  | .fgets size, fgets array => decide (0 < size) && array.isNone
  | .getline _, getline ret _ => ret == .endOfFile
  | _, _ => false

/-- `getline` has run out of memory with a line at hand. -/
def reallocFailed : ReadAnswer → Bool
  | getline ret line => ret == .noMemory && line.isSome
  | _ => false

end ReadAnswer

namespace StoresFile

variable (disk : StoresFile sys path)

/-- What the loop leaves is what the call answers. -/
theorem LineTaken.answer {s : Stdio W} {after : GetlineReturn × LineBuf × Stdio W}
    (h : disk.LineTaken s [] after) (call : Option {line : LineBuf // line.Sound}) :
    disk.Reading after.2.2 ∧
      disk.unread s = (ReadAnswer.getline after.1 (some after.2.1)).bytes ++
        disk.unread after.2.2 ∧
      ((ReadAnswer.getline after.1 (some after.2.1)).reportsEnd (.getline call) = true →
        disk.unread after.2.2 = []) := by
  obtain ⟨hreading, text, htext, hresult⟩ := h
  refine ⟨hreading, ?_, ?_⟩
  · obtain ⟨hret, hnil, -⟩ | ⟨hret, hline⟩ := hresult
    · rw [List.nil_append] at hnil
      rw [htext, hnil, hret]
      rfl
    · rw [List.nil_append] at hret hline
      rw [htext, hret]
      exact congrArg (· ++ _) hline.symm
  · obtain ⟨-, -, hleft⟩ | ⟨hret, -⟩ := hresult
    · exact fun _ => hleft
    · simp [ReadAnswer.reportsEnd, hret]

/-- A line from its first position. -/
theorem getlineLoop_taken {line : LineBuf} {s : Stdio W} (hline : line.Sound)
    (h : disk.Reading s)
    (hmemory : (getlineLoop sys 4294967296 0 line s).1 ≠ .noMemory) :
    disk.LineTaken s [] (getlineLoop sys 4294967296 0 line s) :=
  disk.getlineLoop_spec le_rfl hline hline.pos h hmemory

theorem getline_spec (line : Option {line : LineBuf // line.Sound}) {s : Stdio W}
    (h : disk.Reading s)
    (hmemory : ((ReadCall.getline line).run sys s).1.reallocFailed = false) :
    disk.Reading ((ReadCall.getline line).run sys s).2 ∧
      disk.unread s = ((ReadCall.getline line).run sys s).1.bytes ++
        disk.unread ((ReadCall.getline line).run sys s).2 ∧
      (((ReadCall.getline line).run sys s).1.reportsEnd (.getline line) = true →
        disk.unread ((ReadCall.getline line).run sys s).2 = []) := by
  cases line with
  | some line =>
    obtain ⟨line, hline⟩ := line
    have htaken := disk.getlineLoop_taken hline h
    simp only [ReadCall.run, getline, Option.map_some] at hmemory ⊢
    generalize getlineLoop sys 4294967296 0 line s = after at *
    exact LineTaken.answer disk (htaken (by simpa [ReadAnswer.reallocFailed] using hmemory)) _
  | none =>
    have hsize : (128 : Word).toNat < 2147483648 := by decide
    obtain ⟨hheap, hkeeps, hblock⟩ := disk.malloc_spec hsize h.heap
    simp only [ReadCall.run, getline, Option.map_none] at hmemory ⊢
    cases hmalloc : (malloc sys 128 s.libc).1 with
    | none =>
      obtain ⟨hreading, hunread⟩ := h.of_keeps
        { (malloc sys 128 s.libc).2 with errno := enomem } hkeeps hheap
      exact ⟨hreading, hunread.symm, by simp [ReadAnswer.reportsEnd]⟩
    | some block =>
      obtain ⟨hlength, -⟩ := hblock block hmalloc
      obtain ⟨hreading, hunread⟩ := h.of_keeps _ hkeeps hheap
      have hline : LineBuf.Sound ⟨block, 128⟩ :=
        ⟨by simp, by simp [hlength], by simp [hlength, userHeapLimit]⟩
      have htaken := disk.getlineLoop_taken hline hreading
      rw [hmalloc] at hmemory
      dsimp only at hmemory ⊢
      generalize getlineLoop sys 4294967296 0 ⟨block, 128⟩
        { s with libc := (malloc sys 128 s.libc).2 } = after at *
      rw [← hunread]
      exact LineTaken.answer disk (htaken (by simpa [ReadAnswer.reallocFailed] using hmemory)) _

/-- A call takes what it returns from the bytes left. -/
theorem readCall_spec (call : ReadCall) {s : Stdio W} (h : disk.Reading s)
    (hmemory : (call.run sys s).1.reallocFailed = false)
    (hnul : call.isFgets = true → 0#8 ∉ disk.unread s) :
    disk.Reading (call.run sys s).2 ∧
      disk.unread s = (call.run sys s).1.bytes ++ disk.unread (call.run sys s).2 ∧
      ((call.run sys s).1.reportsEnd call = true → disk.unread (call.run sys s).2 = []) := by
  cases call with
  | fread nmemb =>
    obtain ⟨hreading, hunread, hend⟩ := disk.fread_spec nmemb h
    refine ⟨hreading, hunread, ?_⟩
    simpa [ReadCall.run, ReadAnswer.reportsEnd] using hend
  | fgetc =>
    obtain ⟨hreading, hunread, hend⟩ := disk.fgetc_spec h
    refine ⟨hreading, hunread, ?_⟩
    simpa [ReadCall.run, ReadAnswer.reportsEnd] using hend
  | fgets size =>
    obtain ⟨hreading, hunread, hend⟩ := disk.fgets_spec size h (hnul rfl)
    refine ⟨hreading, hunread, ?_⟩
    simpa [ReadCall.run, ReadAnswer.reportsEnd] using hend
  | getline line => exact disk.getline_spec line h hmemory

/-- A stream that is delivered is just opened. -/
theorem fopen_spec {mode : String} {flags : Nat} {libc libc' : Libc W} {f : File}
    (hmode : openFlags mode = some flags) (hheap : libc.HeapOk)
    (h : fopen sys path mode libc = (some f, libc')) :
    0 ≤ (sys.sysOpen path flags 0o644 libc.world).1 ∧
      f = File.opened (sys.sysOpen path flags 0o644 libc.world).1 ∧
      disk.Keeps (sys.sysOpen path flags 0o644 libc.world).2 libc'.world ∧ libc'.HeapOk := by
  have hsize : fileSize.toNat < 2147483648 := by decide
  have hstart : Libc.HeapOk
      { libc with world := (sys.sysOpen path flags 0o644 libc.world).2 } := hheap
  obtain ⟨hheap', hkeeps, -⟩ := disk.malloc_spec hsize hstart
  unfold fopen at h
  rw [hmode] at h
  dsimp only at h
  split_ifs at h with hfailed
  · simp at h
  · split at h
    · simp at h
    · cases h
      exact ⟨not_lt.mp hfailed, rfl, hkeeps, hheap'⟩

/-- A descriptor at the end of the file. -/
def writer (fd : Int) : Sink sys fd where
  isOpen := fun w => disk.writeOffset w fd = some (disk.content w).length
  delivered := disk.content
  write_ret := fun w bytes h => (disk.write w fd _ bytes h).1
  write_isOpen := by
    intro w bytes h
    obtain ⟨-, hoffset, hcontent⟩ := disk.write w fd _ bytes h
    rw [hoffset, hcontent]
    simp
  write_delivered := by
    intro w bytes h
    obtain ⟨-, -, hcontent⟩ := disk.write w fd _ bytes h
    rw [hcontent]
    simp
  close_delivered := fun w _ => disk.close w fd

end StoresFile

@[simp]
theorem fflushWrite_heapEnd (s : Stdio W) :
    (fflushWrite sys s).2.libc.heapEnd = s.libc.heapEnd := by
  unfold fflushWrite
  dsimp only
  split_ifs <;> rfl

@[simp]
theorem makeRoom_heapEnd (s : Stdio W) : (makeRoom sys s).2.libc.heapEnd = s.libc.heapEnd := by
  unfold makeRoom
  split_ifs <;> simp

theorem fwriteLoop_heapEnd {rounds : Nat} {src : List (BitVec 8)} {s : Stdio W} :
    (fwriteLoop sys rounds src s).2.libc.heapEnd = s.libc.heapEnd := by
  induction rounds generalizing src s with
  | zero => rfl
  | succ rounds ih =>
    cases src with
    | nil => rfl
    | cons c src =>
      simp only [fwriteLoop]
      split_ifs
      · rw [ih]
        exact makeRoom_heapEnd s
      · exact makeRoom_heapEnd s

/-- Writing does not move the heap. -/
theorem WriteCall.run_heapEnd (call : WriteCall) (s : Stdio W) :
    (call.run sys s).libc.heapEnd = s.libc.heapEnd := by
  cases call with
  | fwrite arg =>
    simp only [WriteCall.run, toOutCall, OutCall.run, EnclaveOS.fwrite]
    split_ifs
    · rfl
    · exact fwriteLoop_heapEnd
  | fputc c =>
    simp only [WriteCall.run, toOutCall, OutCall.run, EnclaveOS.fputc]
    split_ifs <;> exact makeRoom_heapEnd s

theorem fclose_heapEnd (s : Stdio W) : (fclose sys s).2.heapEnd = s.libc.heapEnd := by
  unfold fclose
  dsimp only
  split_ifs <;> simp

/-- The stream closed after the calls. -/
def writeAll (sys : UserSys W) (out : File) (libc : Libc W) (writes : List WriteCall) : Libc W :=
  (fclose sys (writes.foldl (WriteCall.run sys) ⟨out, libc⟩)).2

/-- The answers of the calls, and the stream after them. -/
def readAll (sys : UserSys W) (inp : File) (libc : Libc W) (reads : List ReadCall) :
    List (ReadCall × ReadAnswer) × Stdio W :=
  runAll (ReadCall.run sys) ⟨inp, libc⟩ reads

namespace StoresFile

variable (disk : StoresFile sys path)

/-- The file holds what the calls wrote. -/
theorem writeAll_spec {out : File} {libc libc' : Libc W} (hheap : libc.HeapOk)
    (hopen : fopen sys path "w" libc = (some out, libc')) (writes : List WriteCall) :
    disk.content (writeAll sys out libc' writes).world = writes.flatMap WriteCall.bytes ∧
      (writeAll sys out libc' writes).HeapOk := by
  have hmode : openFlags "w" = some writeFlags := by decide
  obtain ⟨hfd, rfl, hkeeps, hheap'⟩ := disk.fopen_spec hmode hheap hopen
  obtain ⟨hcontent, hoffset⟩ := disk.open_write libc.world hfd
  generalize (sys.sysOpen path writeFlags 0o644 libc.world).1 = fd at *
  have hempty : disk.content libc'.world = [] := hkeeps.content.trans hcontent
  have hstart : (disk.writer fd).isOpen libc'.world := by
    simp only [writer, hkeeps.writeOffset, hoffset, hempty, List.length_nil]
  have hinv : ∀ s call, (disk.writer fd).Ready s ∧ s.libc.HeapOk →
      (disk.writer fd).Ready (WriteCall.run sys s call) ∧
        (WriteCall.run sys s call).libc.HeapOk := by
    intro s call h
    refine ⟨call.toOutCall.run_ready (disk.writer fd) h.1, ?_⟩
    rw [Libc.HeapOk, WriteCall.run_heapEnd]
    exact h.2
  have hready := (disk.writer fd).ready_opened hstart
  have hend : (disk.writer fd).Ready
        (writes.foldl (WriteCall.run sys) ⟨File.opened fd, libc'⟩) ∧
      (writes.foldl (WriteCall.run sys) ⟨File.opened fd, libc'⟩).libc.HeapOk :=
    foldl_inv hinv ⟨hready, hheap'⟩
  have htotal : (disk.writer fd).total
      (writes.foldl (WriteCall.run sys) ⟨File.opened fd, libc'⟩) =
      (disk.writer fd).total ⟨File.opened fd, libc'⟩ ++ writes.flatMap WriteCall.bytes :=
    foldl_total hinv (fun s call h => WriteCall.run_total (disk.writer fd) call h.1)
      ⟨hready, hheap'⟩
  constructor
  · have hclosed := (disk.writer fd).fclose_delivered hend.1
    rw [htotal, Sink.total_opened] at hclosed
    rw [writeAll, ← List.nil_append (writes.flatMap _), ← hempty]
    exact hclosed
  · rw [writeAll, Libc.HeapOk, fclose_heapEnd]
    exact hend.2

/-- A reader starts from the whole file. -/
theorem reading_fopen {inp : File} {libc libc' : Libc W} (hheap : libc.HeapOk)
    (hopen : fopen sys path "r" libc = (some inp, libc')) :
    disk.Reading ⟨inp, libc'⟩ ∧ disk.unread ⟨inp, libc'⟩ = disk.content libc.world := by
  have hmode : openFlags "r" = some 0 := by decide
  obtain ⟨hfd, rfl, hkeeps, hheap'⟩ := disk.fopen_spec hmode hheap hopen
  obtain ⟨hcontent, hoffset⟩ := disk.open_read libc.world hfd
  generalize (sys.sysOpen path 0 0o644 libc.world).1 = fd at *
  have hfd0 : disk.readOffset libc'.world fd = some 0 := by rw [hkeeps.readOffset, hoffset]
  refine ⟨⟨⟨0, hfd0⟩, by simp [File.opened], hheap'⟩, ?_⟩
  simp [unread, File.opened, hfd0, hkeeps.content, hcontent]

/-- A reader, of a text without NUL where a call of `fgets` is to read it. -/
def ReadInv (reads : List ReadCall) (s : Stdio W) : Prop :=
  disk.Reading s ∧ ((∃ call ∈ reads, call.isFgets = true) → 0#8 ∉ disk.unread s)

end StoresFile

/-- An answer to one of the calls, for which there was memory. -/
def ReadAnswer.Usable (reads : List ReadCall) (call : ReadCall) (answer : ReadAnswer) : Prop :=
  call ∈ reads ∧ answer.reallocFailed = false

namespace StoresFile

variable (disk : StoresFile sys path)

/-- Every call takes its answer from the front of what is left. -/
theorem readInv_step (reads : List ReadCall) (s : Stdio W) (call : ReadCall)
    (h : disk.ReadInv reads s) (husable : ReadAnswer.Usable reads call (call.run sys s).1) :
    disk.ReadInv reads (call.run sys s).2 ∧
      disk.unread s = (call.run sys s).1.bytes ++ disk.unread (call.run sys s).2 := by
  obtain ⟨hreading, htaken, -⟩ := disk.readCall_spec call h.1 husable.2
    (fun hfgets => h.2 ⟨call, husable.1, hfgets⟩)
  refine ⟨⟨hreading, fun hfgets hmem => h.2 hfgets ?_⟩, htaken⟩
  rw [htaken]
  exact List.mem_append_right _ hmem

/-- Nothing is left once a call has reported the end. -/
theorem readInv_end (reads : List ReadCall) (s : Stdio W) (call : ReadCall)
    (h : disk.ReadInv reads s) (husable : ReadAnswer.Usable reads call (call.run sys s).1) :
    disk.ReadInv reads (call.run sys s).2 ∧
      (disk.unread s = [] ∨ (call.run sys s).1.reportsEnd call = true →
        disk.unread (call.run sys s).2 = []) := by
  obtain ⟨hinv, htaken⟩ := disk.readInv_step reads s call h husable
  refine ⟨hinv, ?_⟩
  rintro (hflag | hreported)
  · rw [htaken] at hflag
    exact (List.append_eq_nil_iff.mp hflag).2
  · exact (disk.readCall_spec call h.1 husable.2
      (fun hfgets => h.2 ⟨call, husable.1, hfgets⟩)).2.2 hreported

end StoresFile

/-- What was written through one stream is what the calls on another return up to the end of the
file, unless `getline` finds no memory for a longer line. -/
theorem stdio_round_trip (disk : StoresFile sys path) {libc libc₁ libc₂ : Libc W} {out inp : File}
    {writes : List WriteCall} {reads : List ReadCall} (hheap : libc.HeapOk)
    (hwrite : fopen sys path "w" libc = (some out, libc₁))
    (hread : fopen sys path "r" (writeAll sys out libc₁ writes) = (some inp, libc₂))
    (hnul : (∃ call ∈ reads, call.isFgets = true) → 0#8 ∉ writes.flatMap WriteCall.bytes)
    (hmemory : ∀ c ∈ (readAll sys inp libc₂ reads).1, c.2.reallocFailed = false)
    (hend : (readAll sys inp libc₂ reads).2.file.eof = true ∨
      ∃ c ∈ (readAll sys inp libc₂ reads).1, c.2.reportsEnd c.1 = true) :
    (readAll sys inp libc₂ reads).1.flatMap (fun c => c.2.bytes) =
      writes.flatMap WriteCall.bytes := by
  obtain ⟨hcontent, hheap₁⟩ := disk.writeAll_spec hheap hwrite writes
  obtain ⟨hreading, hunread⟩ := disk.reading_fopen hheap₁ hread
  rw [hcontent] at hunread
  have hstart : disk.ReadInv reads ⟨inp, libc₂⟩ := ⟨hreading, by rwa [hunread]⟩
  have husable : ∀ c ∈ (readAll sys inp libc₂ reads).1, ReadAnswer.Usable reads c.1 c.2 :=
    fun c hc => ⟨mem_calls_of_mem_runAll hc, hmemory c hc⟩
  have hrest : disk.ReadInv reads (readAll sys inp libc₂ reads).2 ∧
      disk.unread ⟨inp, libc₂⟩ =
        (readAll sys inp libc₂ reads).1.flatMap (fun c => c.2.bytes) ++
          disk.unread (readAll sys inp libc₂ reads).2 :=
    runAll_rest (disk.readInv_step reads) hstart husable
  have hnothing : disk.unread (readAll sys inp libc₂ reads).2 = [] := by
    obtain heof | hreported := hend
    · exact hrest.1.1.atEnd heof
    · have hend' : disk.unread ⟨inp, libc₂⟩ = [] ∨
          ∃ c ∈ (readAll sys inp libc₂ reads).1, c.2.reportsEnd c.1 = true := Or.inr hreported
      exact runAll_flag (disk.readInv_end reads) hstart husable hend'
  rw [← hunread, hrest.2, hnothing, List.append_nil]

/-- The file and the offset of its descriptor. -/
structure OneFile where
  content : List (BitVec 8)
  offset : Nat

/-- The heap may grow to `limit`. -/
def oneFileSys (limit : Nat) : UserSys OneFile where
  sysOpen := fun _ flags _ w => (3, ⟨if flags &&& 0x200 ≠ 0 then [] else w.content, 0⟩)
  sysClose := fun _ w => (0, w)
  sysRead := fun _ count w =>
    (.ok ((w.content.drop w.offset).take count),
      ⟨w.content, w.offset + ((w.content.drop w.offset).take count).length⟩)
  sysWrite := fun _ bytes w =>
    (bytes.length,
      ⟨w.content.take w.offset ++ bytes ++ w.content.drop (w.offset + bytes.length),
        w.offset + bytes.length⟩)
  sysBrk := fun top w =>
    if top = 0 then (0x10000000, w) else if top.toNat ≤ limit then (top.toNat, w) else (-12, w)

def oneFile (limit : Nat) (hlimit : limit ≤ userHeapLimit) :
    StoresFile (oneFileSys limit) "f" where
  content := OneFile.content
  writeOffset := fun w _ => some w.offset
  readOffset := fun w _ => some w.offset
  open_write := fun _ _ => ⟨rfl, rfl⟩
  open_read := fun _ _ => ⟨rfl, rfl⟩
  write := by
    intro w fd k bytes h
    cases h
    exact ⟨rfl, rfl, rfl⟩
  read := by
    intro w fd k count h
    cases h
    refine ⟨_, rfl, List.take_prefix _ _, ?_, rfl, rfl⟩
    intro hcount hnil
    exact (List.take_eq_nil_iff.mp hnil).resolve_left (by omega)
  close := fun _ _ => rfl
  brk := by
    intro w top
    simp only [oneFileSys]
    split_ifs <;> exact ⟨rfl, rfl, rfl⟩
  brk_query := by
    intro w
    simp [oneFileSys, userHeapLimit]
  brk_limit := by
    intro w top h
    simp only [oneFileSys] at h
    split_ifs at h with hzero hfits
    · simp [hzero, userHeapLimit]
    · exact hfits.trans hlimit
    · simp at h

/-- A program that has not used its heap, and an empty file. -/
def freshLibc : Libc OneFile := ⟨0, 0, ⟨[], 0⟩⟩

theorem freshLibc_heapOk : freshLibc.HeapOk := by
  simp [Libc.HeapOk, freshLibc]

/-- The calls of the example: a line and a character. -/
def someWrites : List WriteCall := [.fputc 97, .fputc 10, .fputc 98]

def someReads : List ReadCall := [.getline none, .fgets 5, .fgetc]

/-- The round trip on a kernel with the whole heap. -/
theorem stdio_round_trip_line :
    ∃ inp libc₂,
      (readAll (oneFileSys userHeapLimit) inp libc₂ someReads).1.flatMap (fun c => c.2.bytes) =
        someWrites.flatMap WriteCall.bytes :=
  ⟨File.opened 3, _, stdio_round_trip (oneFile userHeapLimit le_rfl)
    freshLibc_heapOk rfl rfl (fun _ => by decide) (by decide +kernel) (by decide +kernel)⟩

def lineAb : List WriteCall := [.fputc 97, .fputc 98]

/-- A line of one byte, which the first character fills. -/
def oneByte : {line : LineBuf // line.Sound} :=
  ⟨⟨[0], 1⟩, ⟨by decide, by decide, by decide⟩⟩

def lineReads : List ReadCall := [.getline (some oneByte), .fgetc, .fgetc]

/-- Where the heap cannot grow after the second `fopen`, `getline` loses the a that it
has taken. -/
theorem getline_loses :
    ∃ out inp libc₁ libc₂,
      fopen (oneFileSys 268451904) "f" "w" freshLibc = (some out, libc₁) ∧
      fopen (oneFileSys 268451904) "f" "r" (writeAll (oneFileSys 268451904) out libc₁ lineAb) =
        (some inp, libc₂) ∧
      (∃ c ∈ (readAll (oneFileSys 268451904) inp libc₂ lineReads).1,
        c.2.reportsEnd c.1 = true) ∧
      (readAll (oneFileSys 268451904) inp libc₂ lineReads).1.flatMap (fun c => c.2.bytes) ≠
        lineAb.flatMap WriteCall.bytes := by
  refine ⟨File.opened 3, File.opened 3, _, _, rfl, rfl, ?_, ?_⟩
  · decide +kernel
  · decide +kernel

end EnclaveOS
