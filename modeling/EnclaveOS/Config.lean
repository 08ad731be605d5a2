import EnclaveOS.Foundation.PageWord

/-!
# Config - memory layout and paging flags

The constants of `include/config.h`, `include/paging.h`,
`include/pmm.h`, `include/vma.h` and `include/syscall.h` that the
modelled functions read.  Virtual addresses and sizes are natural numbers below
`2 ^ 32`, and every operation of the source that may wrap is written with
`wrap32`; page-table words and their flags are 32-bit words.
-/

namespace EnclaveOS

/-- Reduction of an address computation to `uint32_t`. -/
def wrap32 (n : Nat) : Nat := n % 4294967296

/-- Reduction of a computation to `uint64_t`. -/
def wrap64 (n : Nat) : Nat := n % 18446744073709551616

/-- A `uint32_t` returned as an `int`. -/
def int32 (n : Nat) : Int :=
  if n < 2147483648 then n else n - 4294967296

def kernelSpaceStart : Nat := 0xC0000000
def userSpaceEnd : Nat := 0xBFFFFFFF
def userStackVirtTop : Nat := 0xBFFFF000
def userStackSize : Nat := 64 * 1024
def userStackGuardSize : Nat := 4 * 1024
def userHeapStart : Nat := 0x10000000
def userHeapMaxSize : Nat := 64 * 1024 * 1024
def userMmapStart : Nat := 0x40000000
def userMmapMaxSize : Nat := 0x40000000
def kernelHeapVirt : Nat := 0xD0000000
def kernelHeapSize : Nat := 128 * 1024 * 1024
def kernelHeapEnd : Nat := kernelHeapVirt + kernelHeapSize
def kernelStackPoolStart : Nat := 0xC8000000
def kernelStackPoolSize : Nat := 16 * 1024 * 1024
def kernelStackSlotPages : Nat := 5
def fbVirtBase : Nat := 0xFD000000
def fbPhysBase : Nat := 0xFD000000
def fbSizeMb : Nat := 16

def pmmPageSize : Nat := 4096
def pmmMaxPages : Nat := 1048576
def lowerMemStart : Nat := 0x00000000
def lowerMemEnd : Nat := 0x00100000
def pciMmioHoleStart : Nat := 0xE0000000
def pciMmioHoleEnd : Nat := 0xFFFFFFFF

def pagePresent : Word := 0x001#32
def pageWrite : Word := 0x002#32
def pageUser : Word := 0x004#32
def pagePwt : Word := 0x008#32
def pagePcd : Word := 0x010#32
def pagePs : Word := 0x080#32
def pageGlobal : Word := 0x100#32
def pageCow : Word := 0x200#32

def vmaRead : Word := 0x01#32
def vmaWrite : Word := 0x02#32
def vmaExec : Word := 0x04#32
def vmaCow : Word := 0x08#32

/-! ## Page arithmetic

`addr & 0xFFFFF000` and `(addr + 0xFFF) & 0xFFFFF000` on
`uint32_t`. -/

/-- Round an address down to its page. -/
def pageDown (addr : Nat) : Nat := addr - addr % 4096

/-- Round an address up to a page, modulo `2 ^ 32`. -/
def pageUp (addr : Nat) : Nat := pageDown (wrap32 (addr + 0xFFF))

/-- Index of an address in the page directory. -/
def dirIndex (virt : Nat) : Nat := virt / 4194304

/-- Index of an address in its page table. -/
def tableIndex (virt : Nat) : Nat := virt / 4096 % 1024

theorem pageDown_le (addr : Nat) : pageDown addr ≤ addr :=
  Nat.sub_le _ _

theorem pageDown_mod (addr : Nat) : pageDown addr % 4096 = 0 := by
  unfold pageDown
  omega

theorem pageDown_eq_self {addr : Nat} (h : addr % 4096 = 0) : pageDown addr = addr := by
  unfold pageDown
  omega

theorem pageUp_eq {addr : Nat} (h : addr ≤ 0xFFFFF000) :
    pageUp addr = pageDown (addr + 0xFFF) := by
  unfold pageUp wrap32
  rw [Nat.mod_eq_of_lt (by omega)]

theorem pageUp_mod (addr : Nat) : pageUp addr % 4096 = 0 :=
  pageDown_mod _

theorem le_pageUp {addr : Nat} (h : addr ≤ 0xFFFFF000) : addr ≤ pageUp addr := by
  rw [pageUp_eq h]
  unfold pageDown
  omega

theorem pageUp_le {addr bound : Nat} (haddr : addr ≤ bound) (hbound : bound % 4096 = 0)
    (hfit : bound ≤ 0xFFFFF000) : pageUp addr ≤ bound := by
  rw [pageUp_eq (haddr.trans hfit)]
  unfold pageDown
  omega

theorem kernelSpaceStart_le_lastPage : kernelSpaceStart ≤ 0xFFFFF000 := by
  decide

theorem tableIndex_lt (virt : Nat) : tableIndex virt < 1024 :=
  Nat.mod_lt _ (by norm_num)

@[simp]
theorem dirIndex_pageDown (virt : Nat) : dirIndex (pageDown virt) = dirIndex virt := by
  unfold dirIndex pageDown
  omega

@[simp]
theorem tableIndex_pageDown (virt : Nat) : tableIndex (pageDown virt) = tableIndex virt := by
  unfold tableIndex pageDown
  omega

theorem dirIndex_lt_768_iff (virt : Nat) : dirIndex virt < 768 ↔ virt < kernelSpaceStart := by
  unfold dirIndex kernelSpaceStart
  omega

end EnclaveOS
