import EnclaveOS.Foundation.ByteMemory
import EnclaveOS.Memory.KernelStack

/-!
# ForkFrame - the stack of a forked child

`INT 0x80` and `isr_common_stub` build a `struct regs` at the top of the
kernel stack, `task_fork` forges the stack of the child from it, and
`switch_context` with `ret_from_fork` pops what was forged.  The processor is
its registers, its stack pointer and the bytes of memory.
-/

namespace EnclaveOS

open ByteMemory

structure Registers where
  eax : Word
  ecx : Word
  edx : Word
  ebx : Word
  ebp : Word
  esi : Word
  edi : Word
  eip : Word
  eflags : Word
  cs : BitVec 16
  ds : BitVec 16
  es : BitVec 16
  fs : BitVec 16
  gs : BitVec 16
  ss : BitVec 16

/-- Registers, `ESP` and memory, with the addresses of the stack slots read so far. -/
structure Cpu where
  regs : Registers
  esp : Word
  mem : Bytes
  slots : List Nat

namespace Cpu

/-- `push`. -/
def push (c : Cpu) (w : Word) : Cpu :=
  { c with esp := c.esp - 4#32, mem := storeWord c.mem (c.esp - 4#32).toNat w }

/-- `pop`, with what the instruction does with the word. -/
def pop (c : Cpu) (set : Word → Registers → Registers) : Cpu :=
  { c with
    regs := set (loadWord c.mem c.esp.toNat) c.regs
    esp := c.esp + 4#32
    slots := c.slots ++ [c.esp.toNat] }

end Cpu

/-- `mov ax, seg`: the upper half of `EAX` stays. -/
def segmentWord (eax : Word) (seg : BitVec 16) : Word := eax.extractLsb' 16 16 ++ seg

/-- The selector in a word. -/
def selector (w : Word) : BitVec 16 := w.setWidth 16

/-- What is pushed on the kernel stack, in order: by the processor on the way from Ring 3,
by `isr128`, by `pusha` and by `isr_common_stub`. -/
def interruptPushes (c : Cpu) (esp0 : Word) : List Word :=
  let r := c.regs
  [r.ss.setWidth 32, c.esp, r.eflags, r.cs.setWidth 32, r.eip] ++
  [0#32, 0x80#32] ++
  [r.eax, r.ecx, r.edx, r.ebx, esp0 - 28#32, r.ebp, r.esi, r.edi] ++
  [segmentWord r.eax r.ds, segmentWord r.eax r.es, segmentWord r.eax r.fs,
    segmentWord r.eax r.gs]

/-- `INT 0x80` up to the call of `isr_handler`; the stack is the one that
`tss_set_kernel_stack` chose, and `ESP` is the `struct regs`. -/
def int80 (c : Cpu) (esp0 : Word) : Cpu :=
  (interruptPushes c esp0).foldl Cpu.push { c with esp := esp0 }

/-- `sizeof(struct regs)`. -/
def sizeofRegs : Nat := 76

/-- Offset of `eax` in `struct regs`. -/
def regsEax : Nat := 44

/-- `KERNEL_STACK_USABLE_SIZE`. -/
def kernelStackUsableSize : Nat := 4 * 4096

/-- `syscall_dispatcher` stores the result of the call. -/
def setResult (mem : Bytes) (r : Nat) (result : Word) : Bytes :=
  storeWord mem (r + regsEax) result

/-- The memory and `child->esp` that `task_fork` leaves. -/
def taskForkStack (retFromFork : Word) (parentTop childTop r : Nat) (mem : Bytes) :
    Bytes × Word :=
  let parentStackBase := parentTop - kernelStackUsableSize
  let childStackBase := childTop - kernelStackUsableSize
  let mem := copy mem childStackBase parentStackBase kernelStackUsableSize
  let offsetFromBase := r - parentStackBase
  let originalChildR := childStackBase + offsetFromBase
  let shift := 32
  let childR := originalChildR - shift
  let mem := copy mem childR originalChildR sizeofRegs
  let mem := storeWord mem (childR + regsEax) 0#32
  let mem := storeWord mem (childR - 4) (BitVec.ofNat 32 childR)
  let mem := storeWord mem (childR - 8) retFromFork
  let mem := storeWord mem (childR - 12) 0#32
  let mem := storeWord mem (childR - 16) 0#32
  let mem := storeWord mem (childR - 20) 0#32
  let mem := storeWord mem (childR - 24) 0#32
  (mem, BitVec.ofNat 32 (childR - 24))

/-- `iret`; a return to Ring 3 also pops `ESP` and `SS`. -/
def iret (c : Cpu) : Cpu :=
  let c := c.pop fun w r => { r with eip := w }
  let c := c.pop fun w r => { r with cs := selector w }
  let c := c.pop fun w r => { r with eflags := w }
  if c.regs.cs.toNat % 4 = 3 then
    let userEsp := loadWord c.mem c.esp.toNat
    let c := c.pop fun _ r => r
    let c := c.pop fun w r => { r with ss := selector w }
    { c with esp := userEsp }
  else c

/-- From `ESP` at a `struct regs`: the segment registers, `popa`,
`add esp, 8` and `iret`.  `popa` throws the saved `ESP` away. -/
def restoreRegs (c : Cpu) : Cpu :=
  let c := c.pop fun w r => { r with eax := w, gs := selector w }
  let c := c.pop fun w r => { r with eax := w, fs := selector w }
  let c := c.pop fun w r => { r with eax := w, es := selector w }
  let c := c.pop fun w r => { r with eax := w, ds := selector w }
  let c := c.pop fun w r => { r with edi := w }
  let c := c.pop fun w r => { r with esi := w }
  let c := c.pop fun w r => { r with ebp := w }
  let c := c.pop fun _ r => r
  let c := c.pop fun w r => { r with ebx := w }
  let c := c.pop fun w r => { r with edx := w }
  let c := c.pop fun w r => { r with ecx := w }
  let c := c.pop fun w r => { r with eax := w }
  iret { c with esp := c.esp + 8#32 }

/-- `ret_from_fork`: `pop esp` and the return path of the stub. -/
def retFromForkPath (c : Cpu) : Cpu :=
  restoreRegs
    { c with esp := loadWord c.mem c.esp.toNat, slots := c.slots ++ [c.esp.toNat] }

/-- The second half of `switch_context`, on the stack of the chosen task; only the
return to `ret_from_fork` is followed. -/
def switchContext (retFromFork : Word) (c : Cpu) (newEsp : Word) : Option Cpu :=
  let c := { c with esp := newEsp, slots := [] }
  let c := c.pop fun w r => { r with ebp := w }
  let c := c.pop fun w r => { r with edi := w }
  let c := c.pop fun w r => { r with esi := w }
  let c := c.pop fun w r => { r with ebx := w }
  let c := c.pop fun w r => { r with eip := w }
  if c.regs.eip = retFromFork then some (retFromForkPath c) else none

end EnclaveOS
