import EnclaveOS.Memory.Paging
import EnclaveOS.Memory.Vma

/-!
# Fault - the page fault handler

`vmm_handle_user_write_fault` and `page_fault_handler` of
`paging.c`.  The handler ends in one of three ways: it returns to the faulting
instruction, it kills the current task, or it stops the machine in an endless
`hlt` loop.  `task_kill_current` does not return, so the loop the source
writes behind each call of it is not reached.
-/

namespace EnclaveOS

open PageWord

/-- The fields of `current_task` that the handler reads. -/
structure FaultTask where
  pdirVirt : Option Nat
  vmaHead : List Vma

/-- Error code of the CPU: present, write, user, reserved bit. -/
structure FaultCode where
  present : Bool
  rw : Bool
  us : Bool
  reserved : Bool
deriving DecidableEq

/-- How the handler ends. -/
inductive FaultOutcome where
  | resumed
  | killed (reason : String)
  | halted
deriving DecidableEq

/-- Return values of `vmm_handle_user_write_fault`. -/
inductive PfResult where
  | resolved
  | notHandled
  | errNoVma
  | errPerm
  | errOom
  | errBadPd
deriving DecidableEq

/-- A read-only entry made writable again by its only owner. -/
def ownedEntry (pte : Word) : Word :=
  physOf pte ||| ((lowBits pte &&& ~~~pageCow) ||| pageWrite)

/-- The entry of a private copy at `newPhys`. -/
def copiedEntry (pte newPhys : Word) : Word :=
  newPhys ||| ((lowBits pte &&& ~~~pageCow) ||| pageWrite)

/-- A soft read-only entry made writable. -/
def softEntry (pte : Word) : Word :=
  physOf pte ||| (lowBits pte ||| pageWrite)

/-- The part of the resolver under disabled interrupts, for the present user entry
`index` of the table `pt`. -/
def resolveWrite (m : Machine) (pt index : Nat) : Machine × PfResult :=
  let pte := m.mem pt index
  let oldPhys := physOf pte
  if hasFlag pte pageCow then
    if pmmGetRefcount m.pmm oldPhys ≤ 1 then
      (m.setWord pt index (ownedEntry pte), .resolved)
    else
      match m.allocPage with
      | (m, newPhys) =>
        if newPhys = 0#32 then (m, .errOom)
        else
          let m := (m.copyFrame (frameOf newPhys) (frameOf oldPhys)).decRef oldPhys
          (m.setWord pt index (copiedEntry pte newPhys), .resolved)
  else if !hasFlag pte pageWrite then
    if pmmGetRefcount m.pmm oldPhys ≤ 1 then
      (m.setWord pt index (softEntry pte), .resolved)
    else (m, .errPerm)
  else (m, .resolved)

theorem resolveWrite_eq (m : Machine) (pd i j : Nat) :
    resolveWrite m (frameOf (m.mem pd i)) j =
      if hasFlag (m.pteAt pd i j) pageCow then
        if pmmGetRefcount m.pmm (physOf (m.pteAt pd i j)) ≤ 1 then
          (m.setWord (frameOf (m.mem pd i)) j (ownedEntry (m.pteAt pd i j)), .resolved)
        else
          match m.allocPage with
          | (m', newPhys) =>
            if newPhys = 0#32 then (m', .errOom)
            else
              (((m'.copyFrame (frameOf newPhys) (frameOf (physOf (m.pteAt pd i j)))).decRef
                (physOf (m.pteAt pd i j))).setWord (frameOf (m.mem pd i)) j
                  (copiedEntry (m.pteAt pd i j) newPhys), .resolved)
      else if !hasFlag (m.pteAt pd i j) pageWrite then
        if pmmGetRefcount m.pmm (physOf (m.pteAt pd i j)) ≤ 1 then
          (m.setWord (frameOf (m.mem pd i)) j (softEntry (m.pteAt pd i j)), .resolved)
        else (m, .errPerm)
      else (m, .resolved) :=
  rfl

/-- The access checks of the resolver on the area of the address. -/
def writableArea (vma : Vma) : Bool :=
  hasFlag vma.flags vmaRead && hasFlag vma.flags vmaWrite &&
    !(hasFlag vma.flags vmaWrite && hasFlag vma.flags vmaExec)

/-- `vmm_handle_user_write_fault`. -/
def vmmHandleUserWriteFault (m : Machine) (task : FaultTask) (addr : Nat) :
    Machine × PfResult :=
  match task.pdirVirt with
  | none => (m, .errBadPd)
  | some pd =>
    if addr ≥ kernelSpaceStart then (m, .errPerm)
    else if pd = m.bootPageDirectory then (m, .errBadPd)
    else
      match vmaFind task.vmaHead addr with
      | none => (m, .errNoVma)
      | some vma =>
        if !writableArea vma then (m, .errPerm)
        else
          let pde := m.mem pd (dirIndex addr)
          if !isPresent pde then (m, .notHandled)
          else if hasFlag pde pagePs then (m, .errBadPd)
          else if physOf pde = 0#32 then (m, .errBadPd)
          else
            let pte := m.mem (frameOf pde) (tableIndex addr)
            if !isPresent pte then (m, .notHandled)
            else if !hasFlag pte pageUser then (m, .errPerm)
            else if physOf pte = 0#32 then (m, .errBadPd)
            else resolveWrite m (frameOf pde) (tableIndex addr)

/-- The kill reasons in which the two demand-paging paths differ. -/
structure DemandReasons where
  noVma : String
  notReadable : String
  readOnly : String
  writeExec : String

/-- Protection of a page created on demand. -/
def demandFlags (vma : Vma) : Word :=
  if hasFlag vma.flags vmaWrite then pagePresent ||| pageUser ||| pageWrite
  else pagePresent ||| pageUser

/-- Demand paging, the common part of the Ring 0 and the Ring 3 path. -/
def demandPage (m : Machine) (pd : Nat) (vmas : List Vma) (addr : Nat) (rw : Bool)
    (reasons : DemandReasons) : Machine × FaultOutcome :=
  match vmaFind vmas addr with
  | none => (m, .killed reasons.noVma)
  | some vma =>
    if !hasFlag vma.flags vmaRead then (m, .killed reasons.notReadable)
    else if rw && !hasFlag vma.flags vmaWrite then (m, .killed reasons.readOnly)
    else if hasFlag vma.flags vmaWrite && hasFlag vma.flags vmaExec then
      (m, .killed reasons.writeExec)
    else
      match m.allocPage with
      | (m, phys) =>
        if phys = 0#32 then (m, .killed "Out of Memory (OOM Kill)")
        else
          let cleared := m.clearFrame (frameOf phys)
          match vmmMapPageInPd cleared pd (pageDown addr) phys (demandFlags vma) with
          | .halted => (cleared, .halted)
          | .failed m => (m.freePage phys, .killed "Out of Memory (VMM PT Alloc Failed)")
          | .mapped m => (m, .resumed)

def kernelDemandReasons : DemandReasons where
  noVma := "Kernel accessed unmapped user memory"
  notReadable := "Kernel read from non-readable VMA"
  readOnly := "Kernel write to read-only user memory"
  writeExec := "W^X violation in kernel user access"

def userDemandReasons : DemandReasons where
  noVma := "Access to unmapped memory (No VMA)"
  notReadable := "Access to non-readable VMA"
  readOnly := "Write to Read-Only memory (W^X violation)"
  writeExec := "W^X violation"

/-- Outcome of a present write fault in Ring 0. -/
def kernelWriteOutcome : PfResult → FaultOutcome
  | .resolved => .resumed
  | .errNoVma => .killed "Kernel write to unmapped user memory"
  | .errOom => .killed "Out of Memory (CoW Failed)"
  | .errPerm => .killed "Kernel write permission violation"
  | .notHandled | .errBadPd => .killed "Kernel write to invalid user page"

/-- Outcome of a present write fault in Ring 3. -/
def userWriteOutcome : PfResult → FaultOutcome
  | .resolved => .resumed
  | .errNoVma => .killed "Write to unmapped memory (No VMA)"
  | .errOom => .killed "Out of Memory (CoW Failed)"
  | .notHandled | .errPerm | .errBadPd => .killed "Write permission violation (W^X)"

/-- Part 5 of `page_fault_handler`: faults raised in Ring 0. -/
def kernelFault (m : Machine) (pd : Nat) (task : FaultTask) (addr : Nat) (code : FaultCode) :
    Machine × FaultOutcome :=
  if kernelStackPoolStart ≤ addr ∧ addr < kernelStackPoolStart + kernelStackPoolSize then
    (m, .killed "Kernel Stack Overflow")
  else if !code.present ∧ !code.reserved ∧ kernelHeapVirt ≤ addr ∧ addr < kernelHeapEnd then
    match m.allocPage with
    | (m, phys) =>
      if phys = 0#32 then (m, .halted)
      else
        let cleared := m.clearFrame (frameOf phys)
        match vmmMapPage cleared (pageDown addr) phys (pagePresent ||| pageWrite) with
        | none => (cleared, .halted)
        | some m => (m, .resumed)
  else if addr < kernelSpaceStart then
    if pd = m.bootPageDirectory then (m, .killed "Ring 0 user access with boot PD")
    else if code.present && code.rw then
      match vmmHandleUserWriteFault m task addr with
      | (m, rc) => (m, kernelWriteOutcome rc)
    else if !code.present then demandPage m pd task.vmaHead addr code.rw kernelDemandReasons
    else (m, .killed "Kernel access to protected user memory")
  else (m, .halted)

/-- Part 6 of `page_fault_handler`: faults raised in Ring 3. -/
def userFault (m : Machine) (pd : Nat) (task : FaultTask) (addr : Nat) (code : FaultCode) :
    Machine × FaultOutcome :=
  if pd = m.bootPageDirectory then (m, .killed "Ring 3 with boot address space")
  else if code.present && code.rw then
    match vmmHandleUserWriteFault m task addr with
    | (m, rc) => (m, userWriteOutcome rc)
  else if !code.present then demandPage m pd task.vmaHead addr code.rw userDemandReasons
  else (m, .killed "Access to protected memory")

/-- `page_fault_handler`, for a fault at `addr` with the given error code. -/
def pageFaultHandler (m : Machine) (currentTask : Option FaultTask) (addr : Nat)
    (code : FaultCode) : Machine × FaultOutcome :=
  match currentTask with
  | none => (m, .halted)
  | some task =>
    if addr < 0x1000 then
      (m, if code.us then .killed "NULL Pointer Dereference" else .halted)
    else if code.reserved then
      (m, if code.us then .killed "Reserved bit corruption" else .halted)
    else
      match task.pdirVirt with
      | none => (m, if code.us then .killed "Invalid address space" else .halted)
      | some pd =>
        if addr ≥ kernelSpaceStart ∧ code.us then
          (m, .killed "Attempted access to Kernel Space")
        else if !code.us then kernelFault m pd task addr code
        else userFault m pd task addr code

end EnclaveOS
