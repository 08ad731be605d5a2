import EnclaveOS.Fs.Tmpfs
import EnclaveOS.User.Stdio

/-!
# StdioSeek - moving in a stream

`lseek`, `fseek` and `ftell` of `user_libc.c` on system calls that are a
parameter; and the calls `sys_read` and `sys_write` of `vfs.c` and
`sys_lseek_handler` of `syscall.c` on an open file of tmpfs.
-/

namespace EnclaveOS

open PageWord

def seekSet : Int := 0
def seekCur : Int := 1
def seekEnd : Int := 2

section Library

variable {W : Type*} (sys : UserSys W) (sysLseek : Int → Word → Int → W → Int × W)

/-- `lseek`. -/
def lseek (fd : Int) (offset : Word) (whence : Int) (libc : Libc W) : Int × Libc W :=
  let (ret, world) := sysLseek fd offset whence libc.world
  if ret < 0 then (-1, { libc with errno := -ret, world := world })
  else (ret, { libc with world := world })

/-- `fseek`. -/
def fseek (offset : Word) (whence : Int) (s : Stdio W) : Int × Stdio W :=
  let s := (fflushWrite sys s).2
  -- what was read ahead is dropped, and the offset of the kernel stays behind it
  let file := { s.file with readBuffer := [], bufferPos := 0 }
  let (newPos, libc) := lseek sysLseek file.fd offset whence s.libc
  if newPos < 0 then (-1, ⟨file, libc⟩) else (0, ⟨{ file with eof := false }, libc⟩)

/-- `ftell`. -/
def ftell (s : Stdio W) : Int × Stdio W :=
  let s := (fflushWrite sys s).2
  let (pos, libc) := lseek sysLseek s.file.fd 0 seekCur s.libc
  let pos :=
    if 0 < s.file.readBuffer.length then pos - (s.file.readBuffer.length - s.file.bufferPos)
    else pos
  (pos, { s with libc := libc })

end Library

/-- The open file of a descriptor and its node, with the outcomes of the `kmalloc` of the
writes to come. -/
structure OpenTmpfs where
  fd : Int
  node : TmpfsNode
  offset : Nat
  allocs : List (Option (Nat → Byte))

namespace OpenTmpfs

def ebadf : Int := 9

/-- `sys_read`. -/
def sysRead (fd : Int) (count : Nat) (w : OpenTmpfs) : Except Int (List Byte) × OpenTmpfs :=
  if fd ≠ w.fd then (.error (-1), w)
  else
    let (ret, bytes) := tmpfsRead w.node w.offset count
    if ret < 0 then (.error ret, w)
    else (.ok bytes, if 0 < ret then { w with offset := wrap32 (w.offset + ret.toNat) } else w)

/-- `sys_write`. -/
def sysWrite (fd : Int) (bytes : List Byte) (w : OpenTmpfs) : Int × OpenTmpfs :=
  if fd ≠ w.fd then (-1, w)
  else
    let (node, ret) := tmpfsWrite w.node w.offset bytes (w.allocs.headD none)
    let w := { w with node := node, allocs := w.allocs.tail }
    (ret, if 0 < ret then { w with offset := wrap32 (w.offset + ret.toNat) } else w)

/-- `new_offset`; nothing for another `whence`. -/
def newOffset (w : OpenTmpfs) (offset : Word) (whence : Int) : Option Word :=
  if whence = seekSet then some offset
  else if whence = seekCur then some (BitVec.ofNat 32 w.offset + offset)
  else if whence = seekEnd then some (BitVec.ofNat 32 w.node.size + offset)
  else none

/-- `sys_lseek_handler`. -/
def sysLseek (fd : Int) (offset : Word) (whence : Int) (w : OpenTmpfs) : Int × OpenTmpfs :=
  if fd ≠ w.fd then (-ebadf, w)
  else
    match w.newOffset offset whence with
    | none => (-einval, w)
    | some newOffset =>
      if newOffset.toInt < 0 then (-einval, w)
      else (newOffset.toInt, { w with offset := newOffset.toNat })

/-- The system calls of a process with this file open; the other calls do not touch it. -/
def toSys (other : UserSys OpenTmpfs) : UserSys OpenTmpfs :=
  { other with sysRead := sysRead, sysWrite := sysWrite }

end OpenTmpfs

end EnclaveOS
