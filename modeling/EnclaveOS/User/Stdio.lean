import EnclaveOS.User.Printf

/-!
# Stdio - the buffered streams of the user library

The stream functions, `malloc`, `realloc` and `getline` of `user_libc.c`.  The
system calls are a parameter.  `read_buffer` is its first `buffer_len` bytes and
`write_buffer` its first `write_pos` bytes; a block of memory is its bytes, and fresh
memory is zero.
-/

namespace EnclaveOS

open PageWord

/-- The system calls of `user_syscalls.h` that the streams use, on a state of the kernel.  A
read delivers an error or the bytes stored; the other calls deliver their return value. -/
structure UserSys (W : Type*) where
  sysOpen : String → Nat → Nat → W → Int × W
  sysClose : Int → W → Int × W
  sysRead : Int → Nat → W → Except Int (List (BitVec 8)) × W
  sysWrite : Int → List (BitVec 8) → W → Int × W
  sysBrk : Word → W → Int × W

def fileBufferSize : Nat := 4096

/-- `FILE`. -/
structure File where
  fd : Int
  eof : Bool
  error : Bool
  readBuffer : List (BitVec 8)
  bufferPos : Nat
  writeBuffer : List (BitVec 8)
  writeFits : writeBuffer.length ≤ fileBufferSize

/-- A stream just opened. -/
def File.opened (fd : Int) : File where
  fd := fd
  eof := false
  error := false
  readBuffer := []
  bufferPos := 0
  writeBuffer := []
  writeFits := Nat.zero_le _

/-- `heap_end` and `errno`, with the kernel below. -/
structure Libc (W : Type*) where
  heapEnd : Word
  errno : Int
  world : W

/-- A stream and the library under it. -/
structure Stdio (W : Type*) where
  file : File
  libc : Libc W

variable {W : Type*} (sys : UserSys W)

def enomem : Int := 12
def einval : Int := 22

/-- `MALLOC_HDR_SIZE`. -/
def mallocHdrSize : Word := 8

/-- `heap_init_if_needed`. -/
def heapInitIfNeeded (libc : Libc W) : Libc W :=
  if libc.heapEnd = 0 then
    let (result, world) := sys.sysBrk 0 libc.world
    { libc with heapEnd := BitVec.ofInt 32 result, world := world }
  else libc

/-- `malloc`: a block with `size` in its header, or nothing. -/
def malloc (size : Word) (libc : Libc W) : Option (List (BitVec 8)) × Libc W :=
  if size = 0 then (none, libc)
  else
    let libc := heapInitIfNeeded sys libc
    let aligned := (size + 7) &&& ~~~7
    let newEnd := libc.heapEnd + (mallocHdrSize + aligned)
    let (result, world) := sys.sysBrk newEnd libc.world
    if result < 0 then (none, { libc with errno := enomem, world := world })
    else (some (List.replicate size.toNat 0), { libc with heapEnd := newEnd, world := world })

/-- `realloc` of a block of `malloc`: the copy takes the smaller of the two sizes. -/
def realloc (block : List (BitVec 8)) (size : Word) (libc : Libc W) :
    Option (List (BitVec 8)) × Libc W :=
  if size = 0 then (none, libc)
  else
    let (fresh, libc) := malloc sys size libc
    match fresh with
    | none => (none, libc)
    | some fresh => (some (block.take size.toNat ++ fresh.drop block.length), libc)

/-- The flags of a mode. -/
def openFlags (mode : String) : Option Nat :=
  if mode = "r" then some 0x0000
  else if mode = "w" then some (0x0001 ||| 0x0040 ||| 0x0200)
  else if mode = "a" then some (0x0001 ||| 0x0040 ||| 0x0400)
  else if mode = "r+" then some 0x0002
  else if mode = "w+" then some (0x0002 ||| 0x0040 ||| 0x0200)
  else if mode = "a+" then some (0x0002 ||| 0x0040 ||| 0x0400)
  else none

/-- `sizeof(FILE)`. -/
def fileSize : Word := 8216

/-- `fopen`. -/
def fopen (path mode : String) (libc : Libc W) : Option File × Libc W :=
  match openFlags mode with
  | none => (none, { libc with errno := einval })
  | some flags =>
    let (fd, world) := sys.sysOpen path flags 0o644 libc.world
    if fd < 0 then (none, { libc with errno := -fd, world := world })
    else
      let (block, libc) := malloc sys fileSize { libc with world := world }
      match block with
      | none => (none, { libc with errno := enomem, world := (sys.sysClose fd libc.world).2 })
      | some _ => (some (File.opened fd), libc)

/-- `fflush_write`; `false` is `EOF`. -/
def fflushWrite (s : Stdio W) : Bool × Stdio W :=
  if s.file.writeBuffer.length = 0 then (true, s)
  else
    let (ret, world) := sys.sysWrite s.file.fd s.file.writeBuffer s.libc.world
    let libc := { s.libc with world := world }
    if ret < 0 then (false, ⟨{ s.file with error := true }, libc⟩)
    else (true, ⟨{ s.file with writeBuffer := [], writeFits := Nat.zero_le _ }, libc⟩)

/-- `fflush`. -/
def fflush (s : Stdio W) : Bool × Stdio W := fflushWrite sys s

/-- `fclose`; `false` is `EOF`. -/
def fclose (s : Stdio W) : Bool × Libc W :=
  let s := if 0 < s.file.writeBuffer.length then (fflushWrite sys s).2 else s
  let (ret, world) := sys.sysClose s.file.fd s.libc.world
  (decide (0 ≤ ret), { s.libc with world := world })

/-- `memcpy` to `write_buffer + write_pos` of as many bytes as there is room for. -/
def File.store (f : File) (bytes : List (BitVec 8)) : File :=
  { f with
    writeBuffer := f.writeBuffer ++ bytes.take (fileBufferSize - f.writeBuffer.length)
    writeFits := by
      have hfits := f.writeFits
      simp only [List.length_append, List.length_take]
      omega }

/-- The flush before a byte is stored. -/
def makeRoom (s : Stdio W) : Bool × Stdio W :=
  if fileBufferSize ≤ s.file.writeBuffer.length then fflushWrite sys s else (true, s)

/-- The loop of `fwrite`, with a bound on its rounds: the bytes not taken. -/
def fwriteLoop : Nat → List (BitVec 8) → Stdio W → List (BitVec 8) × Stdio W
  | 0, src, s => (src, s)
  | _ + 1, [], s => ([], s)
  | rounds + 1, c :: src, s =>
    let (ok, s) := makeRoom sys s
    if ok then
      fwriteLoop rounds ((c :: src).drop (fileBufferSize - s.file.writeBuffer.length))
        { s with file := s.file.store (c :: src) }
    else (c :: src, s)

/-- The array that `fwrite` is given; it lies in the address space. -/
structure FwriteArg where
  size : Word
  nmemb : Word
  data : List (BitVec 8)
  covers : data.length = size.toNat * nmemb.toNat
  fits : data.length < 4294967296

/-- `fwrite`: the number of elements taken. -/
def fwrite (arg : FwriteArg) (s : Stdio W) : Nat × Stdio W :=
  if arg.size = 0 ∨ arg.nmemb = 0 then (0, s)
  else
    let totalBytes := (arg.size * arg.nmemb).toNat
    let (left, s) := fwriteLoop sys totalBytes (arg.data.take totalBytes) s
    ((totalBytes - left.length) / arg.size.toNat, s)

/-- `fputc`. -/
def fputc (c : Word) (s : Stdio W) : Option (BitVec 8) × Stdio W :=
  let (ok, s) := makeRoom sys s
  if ok then (some (c.setWidth 8), { s with file := s.file.store [c.setWidth 8] })
  else (none, s)

/-- A string as an array of single bytes. -/
def CString.toFwriteArg (str : CString) : FwriteArg where
  size := 1
  nmemb := BitVec.ofNat 32 str.chars.length
  data := str.chars
  covers := by
    have hshort := str.short
    simp
    omega
  fits := by
    have hshort := str.short
    omega

@[simp]
theorem CString.toFwriteArg_data (str : CString) : str.toFwriteArg.data = str.chars :=
  rfl

/-- `fputs`; `false` is `EOF`. -/
def fputs (str : CString) (s : Stdio W) : Bool × Stdio W :=
  let (count, s) := fwrite sys str.toFwriteArg s
  (count == str.chars.length, s)

/-- `write`. -/
def write (fd : Int) (bytes : List (BitVec 8)) (libc : Libc W) : Int × Libc W :=
  let (ret, world) := sys.sysWrite fd bytes libc.world
  if ret < 0 then (-1, { libc with errno := -ret, world := world })
  else (ret, { libc with world := world })

/-- `sizeof(buf)` in `vfprintf`. -/
def printfBufferSize : Nat := 1024

/-- `vfprintf`: the text goes to the descriptor and not through the buffer. -/
def vfprintf (fmt : CString) (args : VaList) (s : Stdio W) : Int × Stdio W :=
  let text := vsnprintf printfBufferSize fmt args
  if text.length = 0 then (0, s)
  else
    let (ret, libc) := write sys s.file.fd text s.libc
    (ret, { s with libc := libc })

/-- `fprintf`. -/
def fprintf (fmt : CString) (args : VaList) (s : Stdio W) : Int × Stdio W :=
  vfprintf sys fmt args s

/-- `fill_read_buffer`; `true` where it returns a positive number. -/
def fillReadBuffer (s : Stdio W) : Bool × Stdio W :=
  let (ret, world) := sys.sysRead s.file.fd fileBufferSize s.libc.world
  let libc := { s.libc with world := world }
  match ret with
  | .error _ => (false, ⟨{ s.file with error := true, readBuffer := [], bufferPos := 0 }, libc⟩)
  | .ok [] => (false, ⟨{ s.file with eof := true, readBuffer := [], bufferPos := 0 }, libc⟩)
  | .ok bytes => (true, ⟨{ s.file with readBuffer := bytes, bufferPos := 0 }, libc⟩)

/-- The refill before a byte is taken. -/
def makeAvailable (s : Stdio W) : Bool × Stdio W :=
  if s.file.readBuffer.length ≤ s.file.bufferPos then fillReadBuffer sys s else (true, s)

/-- `memcpy` from `read_buffer + buffer_pos` of at most `count` bytes. -/
def File.load (f : File) (count : Nat) : List (BitVec 8) × File :=
  let bytes := (f.readBuffer.drop f.bufferPos).take count
  (bytes, { f with bufferPos := f.bufferPos + bytes.length })

/-- The loop of `fread`, with a bound on its rounds: the bytes copied. -/
def freadLoop : Nat → Nat → Stdio W → List (BitVec 8) × Stdio W
  | 0, _, s => ([], s)
  | rounds + 1, wanted, s =>
    if wanted = 0 then ([], s)
    else
      let (ok, s) := makeAvailable sys s
      if ok then
        let (bytes, file) := s.file.load wanted
        let (more, s) := freadLoop rounds (wanted - bytes.length) { s with file := file }
        (bytes ++ more, s)
      else ([], s)

/-- `fread`: the bytes stored at `ptr`; it returns their number divided by `size`. -/
def fread (size nmemb : Word) (s : Stdio W) : List (BitVec 8) × Stdio W :=
  if size = 0 ∨ nmemb = 0 then ([], s)
  else freadLoop sys (size * nmemb).toNat (size * nmemb).toNat s

/-- `fgetc`. -/
def fgetc (s : Stdio W) : Option (BitVec 8) × Stdio W :=
  let (ok, s) := makeAvailable sys s
  if ok then
    (some (s.file.readBuffer.getD s.file.bufferPos 0),
      { s with file := { s.file with bufferPos := s.file.bufferPos + 1 } })
  else (none, s)

def newline : BitVec 8 := 10

/-- The loop of `fgets` with room for `room` characters: those stored. -/
def fgetsLoop : Nat → Stdio W → List (BitVec 8) × Stdio W
  | 0, s => ([], s)
  | room + 1, s =>
    match fgetc sys s with
    | (none, s) => ([], s)
    | (some c, s) =>
      if c = newline then ([c], s)
      else
        let (more, s) := fgetsLoop room s
        (c :: more, s)

/-- `fgets`: the array it leaves at `s`, or `NULL`. -/
def fgets (size : Int) (s : Stdio W) : Option (List (BitVec 8)) × Stdio W :=
  if size ≤ 0 then (none, s)
  else
    let (text, s) := fgetsLoop sys (size.toNat - 1) s
    if text.length = 0 ∧ 1 < size then (none, s) else (some (text ++ [0]), s)

/-- `*lineptr` and `*n`. -/
structure LineBuf where
  block : List (BitVec 8)
  n : Word

/-- What `getline` returns: -1 with `ENOMEM`, -1 at the end of the file, or a length. -/
inductive GetlineReturn
  | noMemory
  | endOfFile
  | length (count : Nat)
  deriving DecidableEq

/-- The doubling before a character is stored. -/
def growLine (pos : Nat) (line : LineBuf) (libc : Libc W) : Bool × LineBuf × Libc W :=
  if line.n.toNat ≤ pos + 1 then
    let n := line.n * 2
    let (block, libc) := realloc sys line.block n libc
    match block with
    -- the size has been doubled and the block has not
    | none => (false, { line with n := n }, { libc with errno := enomem })
    | some block => (true, ⟨block, n⟩, libc)
  else (true, line, libc)

/-- The terminating NUL. -/
def LineBuf.finish (line : LineBuf) (pos : Nat) : LineBuf :=
  { line with block := line.block.set pos 0 }

/-- The loop of `getline` from `pos` on, with a bound on its rounds. -/
def getlineLoop : Nat → Nat → LineBuf → Stdio W → GetlineReturn × LineBuf × Stdio W
  | 0, _, line, s => (.noMemory, line, s)
  | rounds + 1, pos, line, s =>
    match fgetc sys s with
    | (none, s) => (if pos = 0 then .endOfFile else .length pos, line.finish pos, s)
    | (some c, s) =>
      let (ok, line, libc) := growLine sys pos line s.libc
      let s := { s with libc := libc }
      if ok then
        let line := { line with block := line.block.set pos c }
        if c = newline then (.length (pos + 1), line.finish (pos + 1), s)
        else getlineLoop rounds (pos + 1) line s
      else (.noMemory, line, s)

/-- `getline`: its return value and `*lineptr` after it.  A position is a word. -/
def getline (line : Option LineBuf) (s : Stdio W) : GetlineReturn × Option LineBuf × Stdio W :=
  match line with
  | some line =>
    let (ret, line, s) := getlineLoop sys 4294967296 0 line s
    (ret, some line, s)
  | none =>
    let (block, libc) := malloc sys 128 s.libc
    match block with
    | none => (.noMemory, none, { s with libc := { libc with errno := enomem } })
    | some block =>
      let (ret, line, s) := getlineLoop sys 4294967296 0 ⟨block, 128⟩ { s with libc := libc }
      (ret, some line, s)

end EnclaveOS
