import EnclaveOS.Memory.Fault

/-!
# Cpu - translation of addresses by the processor

The page walk of the processor, with the checks it makes on an access and the
error code it raises.  Caches of translations are not modelled.
-/

namespace EnclaveOS

open PageWord

/-- `CR0.WP`. -/
def cr0Wp : Word := 0x00010000#32

/-- `CR0` as the boot loader hands it over: protected mode, without paging. -/
def loaderCr0 : Word := 0x00000011#32

/-- `CR0` as `_start` and then `tasking_init` leave it. -/
def kernelCr0 : Word :=
  ((loaderCr0 ||| 0x80000010#32) &&& ~~~0x4#32) ||| 0x2#32 ||| 0x20#32

/-- The walk found a mapping on both levels. -/
def isMapped (m : Machine) (pd addr : Nat) : Bool :=
  isPresent (m.mem pd (dirIndex addr)) &&
    isPresent (m.pteAt pd (dirIndex addr) (tableIndex addr))

/-- A flag holds of an access when both levels have it. -/
def walkFlag (m : Machine) (pd addr : Nat) (flag : Word) : Bool :=
  hasFlag (m.mem pd (dirIndex addr)) flag &&
    hasFlag (m.pteAt pd (dirIndex addr) (tableIndex addr)) flag

/-- What an access raises; `none` is an access that goes through.  A write in
Ring 0 honours the write flag when `CR0.WP` is set. -/
def cpuFault (cr0 : Word) (m : Machine) (pd addr : Nat) (rw us : Bool) : Option FaultCode :=
  if !isMapped m pd addr then some ⟨false, rw, us, false⟩
  else if us && !walkFlag m pd addr pageUser then some ⟨true, rw, us, false⟩
  else if rw && (us || hasFlag cr0 cr0Wp) && !walkFlag m pd addr pageWrite then
    some ⟨true, rw, us, false⟩
  else none

/-- The frame an access reaches. -/
def walkFrame (m : Machine) (pd addr : Nat) : Nat :=
  frameOf (m.pteAt pd (dirIndex addr) (tableIndex addr))

end EnclaveOS
