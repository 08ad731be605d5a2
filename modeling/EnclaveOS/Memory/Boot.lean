import EnclaveOS.Memory.Paging

/-!
# Boot - the tables at boot and paging_init

The page tables `boot.asm` leaves behind, `paging_init`, and the
machine on which the kernel starts.  A fill loop of the assembly writes one
arithmetic progression and is given by its closed form.
-/

namespace EnclaveOS

open PageWord

/-- Where the linker puts `.boot.bss`: the frame of
`boot_page_directory`, above 1 MB.  The other symbols follow it. -/
structure BootImage where
  bootPageDirectory : Nat
  above : 256 ≤ bootPageDirectory
  fits : bootPageDirectory + 262 ≤ pmmMaxPages

namespace BootImage

variable (image : BootImage)

def bootPageTables : Nat := image.bootPageDirectory + 1
def bootPageTablesHh : Nat := image.bootPageDirectory + 129
def fbPageTable : Nat := image.bootPageDirectory + 257
def bootStack : Nat := image.bootPageDirectory + 258

/-- Flags `0x3` of the boot mappings. -/
def bootFlags : Word := pagePresent ||| pageWrite

/-- Flags `0x13` of the framebuffer at boot. -/
def bootFbFlags : Word := pagePresent ||| pageWrite ||| pagePcd

/-- Entries of `boot_page_directory`: the identity map, the direct map, and
the framebuffer. -/
def bootDirEntry (i : Nat) : Word :=
  if i < 128 then frameAddr (image.bootPageTables + i) ||| bootFlags
  else if 768 ≤ i ∧ i < 896 then frameAddr (image.bootPageTablesHh + (i - 768)) ||| bootFlags
  else if i = 1012 then frameAddr image.fbPageTable ||| bootFbFlags
  else 0#32

/-- Physical memory when `_start` turns paging on; `ram` is what it held
before. -/
def bootMem (ram : Nat → Nat → Word) (frame index : Nat) : Word :=
  if frame = image.bootPageDirectory then image.bootDirEntry index
  else if image.bootPageTables ≤ frame ∧ frame < image.bootPageTables + 128 then
    frameAddr ((frame - image.bootPageTables) * 1024 + index) ||| bootFlags
  else if image.bootPageTablesHh ≤ frame ∧ frame < image.bootPageTablesHh + 128 then
    frameAddr ((frame - image.bootPageTablesHh) * 1024 + index) ||| bootFlags
  else if frame = image.fbPageTable then
    if index < 768 then frameAddr (fbPhysBase / 4096 + index) ||| bootFbFlags else 0#32
  else ram frame index

/-- The machine after `pmm_init`. -/
def machine (info : BootInfo) (ram : Nat → Nat → Word) : Machine where
  pmm := pmmInit info
  mem := image.bootMem ram
  bootPageDirectory := image.bootPageDirectory
  kstackBitmap := fun _ => false

end BootImage

/-- One of the mapping loops: `count` pages from `virt` to `phys`. -/
def mapKernelRange (virt phys : Nat) (flags : Word) (count : Nat) (m : Machine) :
    Option Machine :=
  (List.range count).foldlM
    (fun m i => vmmMapPage m (virt + i * 4096) (BitVec.ofNat 32 (phys + i * 4096)) flags) m

/-- The regions `paging_init` reserves, from start to end. -/
def pagingRegions (image : BootImage) : List (Nat × Nat) :=
  [(0x00100000, 0x01000000),
    (image.bootPageDirectory * 4096, image.bootPageDirectory * 4096 + 4096),
    (image.bootPageTables * 4096, image.bootPageTables * 4096 + 128 * 4096),
    (image.bootPageTablesHh * 4096, image.bootPageTablesHh * 4096 + 128 * 4096),
    (image.fbPageTable * 4096, image.fbPageTable * 4096 + 4096),
    (image.bootStack * 4096, image.bootStack * 4096 + 16384)]

/-- The reservations of `paging_init`. -/
def pagingReserve (image : BootImage) (p : Pmm) : Pmm :=
  (pagingRegions image).foldl (fun p r => pmmReserveRegion p r.1 r.2) p

/-- Flags `paging_init` gives the framebuffer. -/
def fbFlags : Word := pagePresent ||| pageWrite ||| pagePcd ||| pageUser

/-- `paging_init`; `none` is the halt in `vmm_map_page`. -/
def pagingInit (image : BootImage) (m : Machine) : Option Machine := do
  let m := m.withPmm (pagingReserve image m.pmm)
  let m ← mapKernelRange kernelSpaceStart 0 (pagePresent ||| pageWrite)
    (512 * 1024 * 1024 / 4096) m
  mapKernelRange fbVirtBase fbPhysBase fbFlags (fbSizeMb * 1024 * 1024 / 4096) m

/-- The machine when the kernel proper starts. -/
def kernelBoot (image : BootImage) (info : BootInfo) (ram : Nat → Nat → Word) : Option Machine :=
  pagingInit image (image.machine info ram)

end EnclaveOS
