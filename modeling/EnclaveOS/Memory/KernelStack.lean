import EnclaveOS.Memory.Paging

/-!
# KernelStack - kernel stacks with guard pages

`vmm_alloc_kernel_stack` and `vmm_free_kernel_stack` of
`paging.c`.  A slot of the pool is five pages: an unmapped guard page and
four data pages.  A stack is named by its top.
-/

namespace EnclaveOS

open PageWord

/-- Bytes of one slot. -/
def kernelStackSlotSize : Nat := kernelStackSlotPages * 4096

/-- `KERNEL_STACK_SLOTS`. -/
def kernelStackSlots : Nat := kernelStackPoolSize / kernelStackSlotSize

/-- First address of a slot. -/
def kernelStackBase (slot : Nat) : Nat := kernelStackPoolStart + slot * kernelStackSlotSize

/-- The top of the stack in a slot. -/
def kernelStackTop (slot : Nat) : Nat := kernelStackBase slot + kernelStackSlotSize

/-- Writing one bit of `kstack_bitmap`. -/
def Machine.setSlot (m : Machine) (slot : Nat) (used : Bool) : Machine :=
  { m with kstackBitmap := Function.update m.kstackBitmap slot used }

/-- Result of `vmm_alloc_kernel_stack`: the top of the stack, 0, or the halt
in `vmm_map_page`. -/
inductive KstackResult where
  | allocated (m : Machine) (stackTop : Nat)
  | failed (m : Machine)
  | halted

/-- Unmapping and freeing one page of a stack. -/
def freeStackPage (m : Machine) (virt : Nat) : Machine :=
  let pt := frameOf (m.mem m.bootPageDirectory (dirIndex virt))
  if isPresent (m.mem pt (tableIndex virt)) then
    (m.freePage (physOf (m.mem pt (tableIndex virt)))).setWord pt (tableIndex virt) 0#32
  else m

/-- The mapping loop over the data pages, with the rollback when memory runs out. -/
def mapStackPages (slot : Nat) : List Nat → Machine → KstackResult
  | [], m => .allocated m (kernelStackTop slot)
  | p :: rest, m =>
    match m.allocPage with
    | (m, phys) =>
      if phys = 0#32 then
        .failed (((List.range' 1 (p - 1)).foldl
          (fun m q => freeStackPage m (kernelStackBase slot + q * 4096)) m).setSlot slot false)
      else
        match vmmMapPage m (kernelStackBase slot + p * 4096) phys (pagePresent ||| pageWrite) with
        | none => .halted
        | some m => mapStackPages slot rest m

/-- `vmm_alloc_kernel_stack`. -/
def vmmAllocKernelStack (m : Machine) : KstackResult :=
  match (List.range kernelStackSlots).find? fun i => !m.kstackBitmap i with
  | none => .failed m
  | some slot =>
    mapStackPages slot [1, 2, 3, 4]
      (vmmUnmapPageInPd (m.setSlot slot true) m.bootPageDirectory (kernelStackBase slot))

/-- `vmm_free_kernel_stack`. -/
def vmmFreeKernelStack (m : Machine) (stackTop : Nat) : Machine :=
  if stackTop = 0 then m
  else
    let baseVirt := wrap32 (stackTop + 4294967296 - kernelStackSlotSize)
    let slot := wrap32 (baseVirt + 4294967296 - kernelStackPoolStart) / kernelStackSlotSize
    if kernelStackSlots ≤ slot then m
    else
      [1, 2, 3, 4].foldl
        (fun m p =>
          if isPresent (m.mem m.bootPageDirectory (dirIndex (baseVirt + p * 4096))) then
            freeStackPage m (baseVirt + p * 4096)
          else m)
        (m.setSlot slot false)

end EnclaveOS
