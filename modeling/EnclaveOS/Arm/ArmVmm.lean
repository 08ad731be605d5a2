import EnclaveOS.Config
import EnclaveOS.Foundation.ByteMemory
import Mathlib.Data.List.Range

/-!
# ArmVmm - the translation tables of the ARM kernel

`arm_vmm.c`: the first-level tables are slots of a static pool, the second-level tables are
pages of physical memory.  A space is named by its slot; `none` is the null pointer, and a
number past the pool is an address that is no slot.  Physical memory is read through the direct
map, at the physical address.  The page allocator is a parameter.  Serial output and the flushes
of the translation buffer are left out.
-/

namespace EnclaveOS

open PageWord ByteMemory

def halPagePresent : Word := 0x01#32
def halPageWrite : Word := 0x02#32
def halPageUser : Word := 0x04#32
def halPageExec : Word := 0x08#32
def halPageNocache : Word := 0x10#32
def halPageGlobal : Word := 0x40#32

/-- `HAL_PAGE_KERNEL_CODE`. -/
def halPageKernelCode : Word := halPagePresent ||| halPageExec ||| halPageGlobal

/-- `HAL_PAGE_USER_DATA`. -/
def halPageUserData : Word := halPagePresent ||| halPageWrite ||| halPageUser

/-- `hal_mmu_check_wx`. -/
def halMmuCheckWx (flags : Word) : Bool := !(hasFlag flags halPageWrite && hasFlag flags halPageExec)

def armL1TypeFault : Word := 0x00#32
def armL1TypeCoarse : Word := 0x01#32
def armL2TypeFault : Word := 0x00#32
def armL2TypeSmallPage : Word := 0x02#32
def armL2SmallB : Word := 0x04#32
def armL2SmallC : Word := 0x08#32
def armL2SmallXn : Word := 0x01#32
def armL2SmallNg : Word := 0x800#32

/-- `ARM_L2_SMALL_AP`. -/
def armL2SmallAp (ap : Word) : Word := (ap &&& 3#32) <<< 4

/-- `ARM_L2_SMALL_TEX`. -/
def armL2SmallTex (tex : Word) : Word := (tex &&& 7#32) <<< 6

/-- `ARM_L1_SECTION_DOMAIN`. -/
def armL1SectionDomain (domain : Word) : Word := (domain &&& 0xF#32) <<< 5

def armApKernelRw : Word := 1#32
def armApKernelRwUserRo : Word := 2#32
def armApKernelRwUserRw : Word := 3#32
def armDomainKernel : Word := 0#32
def armDomainUser : Word := 1#32

/-- `hal_flags_to_l2`. -/
def halFlagsToL2 (flags : Word) : Word :=
  armL2TypeSmallPage |||
    (if hasFlag flags halPageNocache then armL2SmallB
      else armL2SmallTex 1#32 ||| armL2SmallC ||| armL2SmallB) |||
    (if hasFlag flags halPageUser then
      if hasFlag flags halPageWrite then armL2SmallAp armApKernelRwUserRw
      else armL2SmallAp armApKernelRwUserRo
    else armL2SmallAp armApKernelRw) |||
    (if hasFlag flags halPageExec then 0#32 else armL2SmallXn) |||
    (if hasFlag flags halPageGlobal then 0#32 else armL2SmallNg)

/-- `l1_type`. -/
def l1Type (entry : Word) : Word := entry &&& 3#32

/-- `l2_phys_from_l1`. -/
def l2PhysFromL1 (entry : Word) : Word := entry &&& 0xFFFFFC00#32

/-- `l2_index`. -/
def l2Index (va : Nat) : Nat := va / 4096 % 256

/-- `virt >> 20`. -/
def l1Index (va : Nat) : Nat := va / 1048576

/-- The entry of an address in the second-level table at `l2`. -/
def l2Entry (mem : Bytes) (l2 : Word) (va : Nat) : Word := loadWord mem (l2.toNat + 4 * l2Index va)

/-- The page allocator: `arm_pmm_alloc_page`, whose result 0 is a failure, and
`arm_pmm_free_page`. -/
structure PageSource (σ : Type) where
  allocPage : σ → σ × Word
  freePage : σ → Word → σ

/-- What the tables rely on: an allocation gives a page that nobody holds, and a page is held until
it is given back. -/
structure PageSource.Lawful {σ : Type} (A : PageSource σ) (held : σ → Nat → Prop) : Prop where
  alloc : ∀ pmm, ((A.allocPage pmm).2 = 0#32 ∧
      ∀ g, held pmm g → held (A.allocPage pmm).1 g) ∨
    ∃ f, 0 < f ∧ f < 1048576 ∧ ¬ held pmm f ∧ (A.allocPage pmm).2 = frameAddr f ∧
      ∀ g, held (A.allocPage pmm).1 g ↔ g = f ∨ held pmm g
  free : ∀ pmm f g, f < 1048576 → (held (A.freePage pmm (frameAddr f)) g ↔ held pmm g ∧ g ≠ f)

/-- `ARM_VMM_MAX_SPACES`. -/
def armVmmMaxSpaces : Nat := 8

/-- The tables: `vmm_l1_pool`, `vmm_l1_used`, the boot table, physical memory and the state of the
page allocator. -/
structure ArmVmm (σ : Type) where
  l1 : Nat → Nat → Word
  used : Nat → Bool
  bootL1 : Nat → Word
  mem : Bytes
  pmm : σ

namespace ArmVmm

variable {σ : Type}

/-- One entry of a first-level table written. -/
def setL1 (m : ArmVmm σ) (slot i : Nat) (entry : Word) : ArmVmm σ :=
  { m with l1 := Function.update m.l1 slot (Function.update (m.l1 slot) i entry) }

/-- The 256 entries of a second-level table set to fault. -/
def zeroL2 (mem : Bytes) (l2 : Nat) : Bytes :=
  fun k => if l2 ≤ k ∧ k < l2 + 1024 then 0#8 else mem k

/-- `arm_vmm_init`. -/
def armVmmInit (m : ArmVmm σ) : ArmVmm σ := { m with used := fun _ => false }

/-- `hal_mmu_create_space`: the slot, or `none`. -/
def halMmuCreateSpace (m : ArmVmm σ) : ArmVmm σ × Option Nat :=
  match (List.range armVmmMaxSpaces).find? fun i => !m.used i with
  | none => (m, none)
  | some slot =>
    ({ m with
        used := Function.update m.used slot true
        l1 := Function.update m.l1 slot fun i => if i < 3072 then armL1TypeFault else m.bootL1 i },
      some slot)

variable (A : PageSource σ)

/-- The second-level tables of the user part given back, entry after entry. -/
def freeTables (l1 : Nat → Word) (pmm : σ) (entries : List Nat) : σ :=
  entries.foldl
    (fun pmm i => if l1Type (l1 i) = armL1TypeCoarse then A.freePage pmm (l2PhysFromL1 (l1 i))
      else pmm) pmm

/-- `hal_mmu_destroy_space`. -/
def halMmuDestroySpace (m : ArmVmm σ) (space : Option Nat) : ArmVmm σ :=
  match space with
  | none => m
  | some slot =>
    if armVmmMaxSpaces ≤ slot then m
    else
      { m with
        pmm := freeTables A (m.l1 slot) m.pmm (List.range 3072)
        used := Function.update m.used slot false }

/-- The table of an address made if there is none; `none` when the allocator has no page. -/
def ensureTable (m : ArmVmm σ) (slot virt : Nat) (flags : Word) : ArmVmm σ × Bool :=
  if l1Type (m.l1 slot (l1Index virt)) = armL1TypeFault then
    match A.allocPage m.pmm with
    | (pmm, l2Pa) =>
      if l2Pa = 0#32 then ({ m with pmm := pmm }, false)
      else
        let domain := if hasFlag flags halPageUser then armDomainUser else armDomainKernel
        (({ m with pmm := pmm, mem := zeroL2 m.mem l2Pa.toNat }).setL1 slot (l1Index virt)
          ((l2Pa &&& 0xFFFFFC00#32) ||| armL1SectionDomain domain ||| armL1TypeCoarse), true)
  else (m, true)

/-- `hal_mmu_map_page_in_space`. -/
def halMmuMapPageInSpace (m : ArmVmm σ) (space : Option Nat) (virt : Nat) (phys flags : Word) :
    ArmVmm σ × Int :=
  match space with
  | none => (m, -1)
  | some slot =>
    if virt % 4096 ≠ 0 then (m, -1)
    else if phys &&& 0xFFF#32 ≠ 0#32 then (m, -1)
    else if !halMmuCheckWx flags then (m, -1)
    else if 3072 ≤ l1Index virt then (m, -1)
    else
      match m.ensureTable A slot virt flags with
      | (m, false) => (m, -1)
      | (m, true) =>
        if l1Type (m.l1 slot (l1Index virt)) ≠ armL1TypeCoarse then (m, -1)
        else
          let l2Pa := l2PhysFromL1 (m.l1 slot (l1Index virt))
          ({ m with
              mem := storeWord m.mem (l2Pa.toNat + 4 * l2Index virt)
                ((phys &&& 0xFFFFF000#32) ||| halFlagsToL2 flags) }, 0)

/-- `hal_mmu_unmap_page_in_space`. -/
def halMmuUnmapPageInSpace (m : ArmVmm σ) (space : Option Nat) (virt : Nat) : ArmVmm σ :=
  match space with
  | none => m
  | some slot =>
    if 3072 ≤ l1Index virt then m
    else if l1Type (m.l1 slot (l1Index virt)) ≠ armL1TypeCoarse then m
    else
      let l2Pa := l2PhysFromL1 (m.l1 slot (l1Index virt))
      { m with mem := storeWord m.mem (l2Pa.toNat + 4 * l2Index virt) armL2TypeFault }

end ArmVmm

/-- The access rights `arm_boot.S` gives the domains: the kernel's is a manager, the user's a
client, and the others are closed. -/
def armDacr : Word := 0x07#32

/-- The rights of the domain of a first-level entry. -/
def domainAccess (entry : Word) : Word :=
  (armDacr >>> (2 * ((entry >>> 5) &&& 0xF#32).toNat)) &&& 3#32

/-- What the translation of a page grants. -/
structure PageAttrs where
  phys : Word
  user : Bool
  writable : Bool
  xn : Bool
deriving DecidableEq

/-- The permission bits of a small page.  The upper access bit opens it to user mode; the lower one
lets the least privileged mode with access write, unless the extension bit is set. -/
def PageAttrs.ofL2 (entry : Word) : PageAttrs :=
  ⟨physOf entry, hasFlag entry 0x20#32, hasFlag entry 0x10#32 && !hasFlag entry 0x200#32,
    hasFlag entry armL2SmallXn⟩

/-- What a call of `hal_mmu_map_page_in_space` asks for. -/
def PageAttrs.ofHal (phys flags : Word) : PageAttrs :=
  ⟨phys, hasFlag flags halPageUser, hasFlag flags halPageWrite, !hasFlag flags halPageExec⟩

/-- A small page under a first-level entry: a client domain checks the permission bits, a manager
domain checks nothing. -/
def PageAttrs.ofEntries (l1 l2 : Word) : Option PageAttrs :=
  if hasFlag l2 armL2TypeSmallPage then
    if domainAccess l1 = 3#32 then some ⟨physOf l2, true, true, false⟩
    else if domainAccess l1 = 1#32 then some (ofL2 l2)
    else none
  else none

/-- The translation of a user address in a space; only the kernel's part has sections. -/
def ArmVmm.translate {σ : Type} (m : ArmVmm σ) (slot va : Nat) : Option PageAttrs :=
  if l1Type (m.l1 slot (l1Index va)) = armL1TypeCoarse then
    PageAttrs.ofEntries (m.l1 slot (l1Index va))
      (l2Entry m.mem (l2PhysFromL1 (m.l1 slot (l1Index va))) va)
  else none

/-- A second-level entry that lets user mode write to the page and execute it. -/
def UserWritableExec (entry : Word) : Prop :=
  hasFlag entry armL2TypeSmallPage ∧ (PageAttrs.ofL2 entry).user ∧
    (PageAttrs.ofL2 entry).writable ∧ ¬ (PageAttrs.ofL2 entry).xn

instance (entry : Word) : Decidable (UserWritableExec entry) :=
  inferInstanceAs (Decidable (_ ∧ _ ∧ _ ∧ _))

end EnclaveOS
