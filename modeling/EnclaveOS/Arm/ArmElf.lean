import EnclaveOS.Arm.ArmVmm
import EnclaveOS.Process.Elf

/-!
# ArmElf - the program loader of the ARM kernel

`arm_elf.c`.  The image is the memory at `elf_image`, of which the first `elf_size` bytes
belong to the file.  Beside the tables the loader state keeps a trace of its own accesses: the
ranges read through `elf_image`, as an offset and a count, and the pages mapped.  The trace is
written and never read.  Serial output is left out.
-/

namespace EnclaveOS

open PageWord ByteMemory

/-- `elf_image` and `elf_size`. -/
structure ElfImage where
  bytes : Nat → BitVec 8
  size : Nat
  fits : size < 4294967296

/-- The bytes at an offset. -/
def ElfImage.slice (image : ElfImage) (offset count : Nat) : List (BitVec 8) :=
  (List.range count).map fun k => image.bytes (offset + k)

def elfClass32 : BitVec 8 := 1#8
def elfData2Lsb : BitVec 8 := 1#8
def evCurrent : Nat := 1
def emArm : Nat := 40

/-- `ELFMAG0` to `ELFMAG3`. -/
def elfMag : List (BitVec 8) := [0x7F#8, 0x45#8, 0x4C#8, 0x46#8]

/-- The fields of `Elf32_Ehdr` that the loader reads. -/
structure Elf32Ehdr where
  eIdent : List (BitVec 8)
  eType : Nat
  eMachine : Nat
  eVersion : Nat
  eEntry : Nat
  ePhoff : Nat
  ePhentsize : Nat
  ePhnum : Nat

def Elf32Ehdr.ofBytes (bytes : List (BitVec 8)) : Elf32Ehdr where
  eIdent := bytes.take 16
  eType := leField bytes 16 2
  eMachine := leField bytes 18 2
  eVersion := leField bytes 20 4
  eEntry := leField bytes 24 4
  ePhoff := leField bytes 28 4
  ePhentsize := leField bytes 42 2
  ePhnum := leField bytes 44 2

/-- The ELF header. -/
def ElfImage.ehdr (image : ElfImage) : Elf32Ehdr :=
  Elf32Ehdr.ofBytes (image.slice 0 elf32HeaderSize)

/-- Offset of the program header number `i`. -/
def ElfImage.phdrOffset (image : ElfImage) (i : Nat) : Nat := image.ehdr.ePhoff + i * elf32PhdrSize

/-- `phdr_table[i]`. -/
def ElfImage.phdr (image : ElfImage) (i : Nat) : Elf32Phdr :=
  Elf32Phdr.ofBytes (image.slice (image.phdrOffset i) elf32PhdrSize)

/-- `validate_elf_header`, as whether it returns 0. -/
def validateElfHeader (ehdr : Elf32Ehdr) (elfSize : Nat) : Bool :=
  if ehdr.eIdent.take 4 ≠ elfMag then false
  else if ehdr.eIdent.getD 4 0#8 ≠ elfClass32 then false
  else if ehdr.eIdent.getD 5 0#8 ≠ elfData2Lsb then false
  else if ehdr.eVersion ≠ evCurrent then false
  else if ehdr.eType ≠ etExec then false
  else if ehdr.eMachine ≠ emArm then false
  else if ehdr.ePhoff = 0 ∨ ehdr.ePhnum = 0 then false
  else if elfSize < wrap32 (ehdr.ePhoff + ehdr.ePhnum * ehdr.ePhentsize) then false
  else if ehdr.ePhentsize ≠ elf32PhdrSize then false
  else true

/-- `validate_segment`. -/
def validateSegment (phdr : Elf32Phdr) (elfSize : Nat) : Int :=
  if phdr.pType ≠ ptLoad then 1
  else if hasFlag phdr.pFlags pfW ∧ hasFlag phdr.pFlags pfX then -1
  else if ¬ hasFlag phdr.pFlags pfR then -1
  else if phdr.pMemsz < phdr.pFilesz then -1
  else if elfSize < wrap32 (phdr.pOffset + phdr.pFilesz) then -1
  else if kernelSpaceStart ≤ phdr.pVaddr then -1
  else if userSpaceEnd < phdr.memEnd ∨ phdr.memEnd < phdr.pVaddr then -1
  else if phdr.pVaddr % 4096 ≠ 0 then -1
  else 0

/-- The offsets of the fields that `validate_segment` reads; `load_segment` reads no other. -/
def segmentFields (phdr : Elf32Phdr) (elfSize : Nat) : List Nat :=
  if phdr.pType ≠ ptLoad then [0]
  else if hasFlag phdr.pFlags pfW ∧ hasFlag phdr.pFlags pfX then [0, 24]
  else if ¬ hasFlag phdr.pFlags pfR then [0, 24]
  else if phdr.pMemsz < phdr.pFilesz then [0, 24, 16, 20]
  else if elfSize < wrap32 (phdr.pOffset + phdr.pFilesz) then [0, 24, 16, 20, 4]
  else [0, 24, 16, 20, 4, 8]

/-- The tables, and the accesses of one `arm_elf_load`. -/
structure ArmLoad (σ : Type) where
  vmm : ArmVmm σ
  reads : List (Nat × Nat)
  mapped : List Nat

/-- `arm_elf_load_result_t`, with the slot of the space in place of its address. -/
structure ArmElfLoadResult where
  space : Nat
  entryPoint : Nat
  userSp : Nat

/-- `segment_flags_to_hal`. -/
def segmentFlagsToHal (pFlags : Word) : Word :=
  (halPagePresent ||| halPageUser) ||| (if hasFlag pFlags pfW then halPageWrite else 0#32) |||
    (if hasFlag pFlags pfX then halPageExec else 0#32)

namespace ArmLoad

variable {σ : Type} (A : PageSource σ) (image : ElfImage) (slot : Nat)

/-- A page of physical memory filled with zeros. -/
def zeroPage (mem : Bytes) (pa : Nat) : Bytes :=
  fun k => if pa ≤ k ∧ k < pa + 4096 then 0#8 else mem k

/-- Bytes of the image copied to physical memory. -/
def copyImage (mem : Bytes) (dst src count : Nat) : Bytes :=
  fun k => if dst ≤ k ∧ k < dst + count then image.bytes (src + (k - dst)) else mem k

/-- One page of the loops of `load_segment` and `allocate_user_stack`: allocated, mapped and zeroed;
the address of the page, or `none`. -/
def takePage (flags : Word) (s : ArmLoad σ) (pageVa : Nat) : ArmLoad σ × Option Word :=
  match A.allocPage s.vmm.pmm with
  | (pmm, pagePa) =>
    let m := { s.vmm with pmm := pmm }
    if pagePa = 0#32 then ({ s with vmm := m }, none)
    else
      match m.halMmuMapPageInSpace A (some slot) pageVa pagePa flags with
      | (m, ret) =>
        if ret < 0 then ({ s with vmm := { m with pmm := A.freePage m.pmm pagePa } }, none)
        else
          ({ s with
              vmm := { m with mem := zeroPage m.mem pagePa.toNat }
              mapped := pageVa :: s.mapped }, some pagePa)

/-- The bytes of the file that belong into a page of a segment. -/
def copyPage (phdr : Elf32Phdr) (s : ArmLoad σ) (pageVa : Nat) (pagePa : Word) : ArmLoad σ :=
  let fileDataEnd := wrap32 (phdr.pVaddr + phdr.pFilesz)
  let copyStart := if phdr.pVaddr < pageVa then pageVa else phdr.pVaddr
  let pageEnd := wrap32 (pageVa + 0x1000)
  let copyEnd := if pageEnd < fileDataEnd then pageEnd else fileDataEnd
  if copyStart < copyEnd then
    let srcOffset := wrap32 (phdr.pOffset + (copyStart - phdr.pVaddr))
    let dst := pagePa.toNat + (copyStart - pageVa)
    { s with
      vmm := { s.vmm with mem := copyImage image s.vmm.mem dst srcOffset (copyEnd - copyStart) }
      reads := (srcOffset, copyEnd - copyStart) :: s.reads }
  else s

/-- One round of the loop of `load_segment`. -/
def loadPage (phdr : Elf32Phdr) (s : ArmLoad σ) (pageVa : Nat) : ArmLoad σ × Bool :=
  match s.takePage A slot (segmentFlagsToHal phdr.pFlags) pageVa with
  | (s, none) => (s, false)
  | (s, some pagePa) => (s.copyPage image phdr pageVa pagePa, true)

/-- One round of the loop of `allocate_user_stack`. -/
def stackPage (s : ArmLoad σ) (pageVa : Nat) : ArmLoad σ × Bool :=
  match s.takePage A slot halPageUserData pageVa with
  | (s, none) => (s, false)
  | (s, some _) => (s, true)

/-- A loop that ends at the first failure. -/
def forEach (body : ArmLoad σ → Nat → ArmLoad σ × Bool) : List Nat → ArmLoad σ → ArmLoad σ × Bool
  | [], s => (s, true)
  | i :: rest, s =>
    match body s i with
    | (s, true) => forEach body rest s
    | (s, false) => (s, false)

/-- The pages of the loop of `load_segment`. -/
def segmentPages (phdr : Elf32Phdr) : List Nat :=
  let mapStart := pageDown phdr.pVaddr
  let mapEnd := pageUp phdr.memEnd
  if mapEnd ≤ mapStart then []
  else (List.range ((mapEnd - mapStart) / 0x1000)).map fun page => wrap32 (mapStart + page * 0x1000)

/-- `load_segment`. -/
def loadSegment (phdr : Elf32Phdr) (s : ArmLoad σ) : ArmLoad σ × Bool :=
  forEach (loadPage A image slot phdr) (segmentPages phdr) s

/-- The pages of the loop of `allocate_user_stack`. -/
def stackPages : List Nat :=
  (List.range (userStackSize / 0x1000)).map fun page =>
    userStackVirtTop - userStackSize + page * 0x1000

/-- `allocate_user_stack`. -/
def allocateUserStack (s : ArmLoad σ) : ArmLoad σ × Bool :=
  forEach (stackPage A slot) stackPages s

/-- The space given up after a failure. -/
def destroySpace (s : ArmLoad σ) : ArmLoad σ :=
  { s with vmm := s.vmm.halMmuDestroySpace A (some slot) }

/-- The header number `i` looked at. -/
def readPhdr (s : ArmLoad σ) (i : Nat) : ArmLoad σ :=
  { s with
    reads := (segmentFields (image.phdr i) image.size).map (fun f => (image.phdrOffset i + f, 4)) ++
      s.reads }

/-- One round of the loop over the program headers; a failure gives the space up. -/
def loadHeader (s : ArmLoad σ) (i : Nat) : ArmLoad σ × Bool :=
  let s := s.readPhdr image i
  let ret := validateSegment (image.phdr i) image.size
  if ret < 0 then (s.destroySpace A slot, false)
  else if ret = 1 then (s, true)
  else
    match s.loadSegment A image slot (image.phdr i) with
    | (s, false) => (s.destroySpace A slot, false)
    | (s, true) => (s, true)

/-- `arm_elf_load`. -/
def armElfLoad (m : ArmVmm σ) : ArmLoad σ × Option ArmElfLoadResult :=
  if image.size < elf32HeaderSize then (⟨m, [], []⟩, none)
  else if !validateElfHeader image.ehdr image.size then (⟨m, [(0, elf32HeaderSize)], []⟩, none)
  else
    match m.halMmuCreateSpace with
    | (m, none) => (⟨m, [(0, elf32HeaderSize)], []⟩, none)
    | (m, some slot) =>
      match forEach (loadHeader A image slot) (List.range image.ehdr.ePhnum)
          ⟨m, [(0, elf32HeaderSize)], []⟩ with
      | (s, false) => (s, none)
      | (s, true) =>
        match s.allocateUserStack A slot with
        | (s, false) => (s.destroySpace A slot, none)
        | (s, true) => (s, some ⟨slot, image.ehdr.eEntry, userStackVirtTop⟩)

end ArmLoad
end EnclaveOS
