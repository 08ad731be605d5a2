import EnclaveOS.Memory.Paging
import EnclaveOS.Memory.Vma

/-!
# Elf - the program loader

`elf_load` of `elf.c`, on a file given by what `vfs_read` answers
for it.  Beside the address space and the area list the loader state keeps a
trace of its own accesses: the frames it took from the allocator, the pages it
mapped, and the bytes it stored.  The trace is written and never read.
-/

namespace EnclaveOS

open PageWord

/-- A file as `vfs_read` presents it: for an offset and a size, the return
value and the bytes it stores at the start of the buffer. -/
structure VfsFile where
  read : Nat → Nat → Int × List (BitVec 8)
  bounded : ∀ offset size, (read offset size).2.length ≤ size
  /-- The return value `size` means that the buffer was filled. -/
  full : ∀ offset size, (read offset size).1 = size → (read offset size).2.length = size

/-- A file with the given contents, read as `initrd_read` does. -/
def VfsFile.ofBytes (bytes : List (BitVec 8)) : VfsFile where
  read offset size :=
    (((bytes.drop offset).take size).length, (bytes.drop offset).take size)
  bounded offset size := by simp
  full _ _ h := Int.ofNat_inj.mp h

def elfMagic : Nat := 0x464C457F
def etExec : Nat := 2
def em386 : Nat := 3
def ptLoad : Nat := 1
def pfX : Word := 0x1#32
def pfW : Word := 0x2#32
def pfR : Word := 0x4#32

/-- `sizeof(elf32_header_t)`. -/
def elf32HeaderSize : Nat := 52

/-- `sizeof(elf32_phdr_t)`. -/
def elf32PhdrSize : Nat := 32

/-- A little-endian field of `size` bytes. -/
def leField (bytes : List (BitVec 8)) (offset size : Nat) : Nat :=
  (List.range size).foldr (fun i acc => (bytes.getD (offset + i) 0#8).toNat + 256 * acc) 0

theorem leField_lt (bytes : List (BitVec 8)) (offset size : Nat) :
    leField bytes offset size < 256 ^ size := by
  unfold leField
  have hrange : ∀ l : List Nat,
      l.foldr (fun i acc => (bytes.getD (offset + i) 0#8).toNat + 256 * acc) 0 <
        256 ^ l.length := by
    intro l
    induction l with
    | nil => simp
    | cons i rest ih =>
      have hbyte := (bytes.getD (offset + i) 0#8).isLt
      rw [List.foldr_cons, List.length_cons, Nat.pow_succ]
      omega
  simpa using hrange (List.range size)

/-- The fields of `elf32_header_t` that the loader reads. -/
structure Elf32Header where
  magic : Nat
  eType : Nat
  eMachine : Nat
  eEntry : Nat
  ePhoff : Nat
  ePhentsize : Nat
  ePhnum : Nat

def Elf32Header.ofBytes (bytes : List (BitVec 8)) : Elf32Header where
  magic := leField bytes 0 4
  eType := leField bytes 16 2
  eMachine := leField bytes 18 2
  eEntry := leField bytes 24 4
  ePhoff := leField bytes 28 4
  ePhentsize := leField bytes 42 2
  ePhnum := leField bytes 44 2

/-- The fields of `elf32_phdr_t` that the loader reads. -/
structure Elf32Phdr where
  pType : Nat
  pOffset : Nat
  pVaddr : Nat
  pFilesz : Nat
  pMemsz : Nat
  pFlags : Word

def Elf32Phdr.ofBytes (bytes : List (BitVec 8)) : Elf32Phdr where
  pType := leField bytes 0 4
  pOffset := leField bytes 4 4
  pVaddr := leField bytes 8 4
  pFilesz := leField bytes 16 4
  pMemsz := leField bytes 20 4
  pFlags := BitVec.ofNat 32 (leField bytes 24 4)

/-- The program header number `i`, when it can be read. -/
def elfPhdr (file : VfsFile) (header : Elf32Header) (i : Nat) : Option Elf32Phdr :=
  match file.read (wrap32 (header.ePhoff + i * header.ePhentsize)) elf32PhdrSize with
  | (bytesRead, bytes) =>
    if bytesRead ≠ elf32PhdrSize then none else some (Elf32Phdr.ofBytes bytes)

namespace Elf32Phdr

/-- `p_vaddr + p_memsz`, a `uint32_t`. -/
def memEnd (h : Elf32Phdr) : Nat := wrap32 (h.pVaddr + h.pMemsz)

/-- The file bytes the copy loop moves: `p_filesz` clamped to `p_memsz`. -/
def copySize (h : Elf32Phdr) : Nat := min h.pFilesz h.pMemsz

/-- Area flags of a segment. -/
def vmaFlags (h : Elf32Phdr) : Word :=
  (if hasFlag h.pFlags pfR then vmaRead else 0#32) |||
    (if hasFlag h.pFlags pfW then vmaWrite else 0#32) |||
    (if hasFlag h.pFlags pfX then vmaExec else 0#32)

/-- Page-table flags of a segment. -/
def pteFlags (h : Elf32Phdr) : Word :=
  if hasFlag h.pFlags pfW then pagePresent ||| pageUser ||| pageWrite
  else pagePresent ||| pageUser

/-- The pages of the mapping loop, from the page of `p_vaddr` up to the
rounded end. -/
def pages (h : Elf32Phdr) : List Nat :=
  (List.range ((pageUp h.memEnd - pageDown h.pVaddr) / 4096)).map
    fun n => pageDown h.pVaddr + n * 4096

/-- The addresses of a segment in memory. -/
def Covers (h : Elf32Phdr) (a : Nat) : Prop := h.pVaddr ≤ a ∧ a < h.pVaddr + h.pMemsz

end Elf32Phdr

/-- A store of the copy loop: `count` bytes at `addr`, into `frame`. -/
structure ElfStore where
  addr : Nat
  frame : Nat
  count : Nat
deriving DecidableEq

/-- The accesses of one `elf_load`. -/
structure ElfTrace where
  /-- Frames obtained from `pmm_alloc_page` and filled with zeros. -/
  allocated : List Nat
  /-- Pages mapped, with their frames. -/
  mapped : List (Nat × Nat)
  stored : List ElfStore

/-- The machine and the temporary task of a load. -/
structure ElfState where
  machine : Machine
  vmaHead : List Vma
  kmallocs : Kmalloc
  trace : ElfTrace

/-- How a part of the load ends. -/
inductive ElfStatus where
  | ok
  | failed
  | halted
deriving DecidableEq

/-- One page of the mapping loop. -/
def elfMapPage (pd : Nat) (flags : Word) (s : ElfState) (addr : Nat) : ElfState × ElfStatus :=
  match s.machine.allocPage with
  | (m, phys) =>
    if phys = 0#32 then ({ s with machine := m }, .failed)
    else
      let cleared := m.clearFrame (frameOf phys)
      let trace := { s.trace with allocated := frameOf phys :: s.trace.allocated }
      match vmmMapPageInPd cleared pd addr phys flags with
      | .halted => ({ s with machine := cleared, trace := trace }, .halted)
      | .failed m => ({ s with machine := m.freePage phys, trace := trace }, .failed)
      | .mapped m =>
        ({ s with
            machine := m
            trace := { trace with mapped := (addr, frameOf phys) :: s.trace.mapped } }, .ok)

/-- The mapping loop. -/
def elfMapPages (pd : Nat) (flags : Word) : List Nat → ElfState → ElfState × ElfStatus
  | [], s => (s, .ok)
  | addr :: rest, s =>
    match elfMapPage pd flags s addr with
    | (s, .ok) => elfMapPages pd flags rest s
    | (s, status) => (s, status)

/-- One byte of a word replaced, in little-endian order. -/
def setByte (w : Word) (index : Nat) (b : BitVec 8) : Word :=
  (w &&& ~~~(0xFF#32 <<< (8 * index))) ||| (b.setWidth 32 <<< (8 * index))

/-- Bytes stored at consecutive positions of a frame. -/
def Machine.storeBytes (m : Machine) (frame offset : Nat) : List (BitVec 8) → Machine
  | [] => m
  | b :: rest =>
    (m.setWord frame (offset / 4) (setByte (m.mem frame (offset / 4)) (offset % 4) b)).storeBytes
      frame (offset + 1) rest

/-- Size of the chunk copied at `destAddr`. -/
def elfChunk (destAddr bytesToCopy : Nat) : Nat :=
  min (4096 - destAddr % 4096) bytesToCopy

/-- The copy loop.  Every round copies at least one byte, so as many rounds as
there are bytes are enough. -/
def elfCopyLoop (file : VfsFile) (pd : Nat) :
    Nat → Nat → Nat → Nat → ElfState → ElfState × ElfStatus
  | 0, _, _, _, s => (s, .ok)
  | rounds + 1, destAddr, offsetInFile, bytesToCopy, s =>
    if bytesToCopy = 0 then (s, .ok)
    else
      let chunkSize := elfChunk destAddr bytesToCopy
      let pde := s.machine.mem pd (dirIndex destAddr)
      if !isPresent pde then (s, .failed)
      else
        let pte := s.machine.mem (frameOf pde) (tableIndex destAddr)
        if !isPresent pte then (s, .failed)
        else
          match file.read offsetInFile chunkSize with
          | (readBytes, bytes) =>
            let s := { s with
              machine := s.machine.storeBytes (frameOf pte) (destAddr % 4096) bytes
              trace := { s.trace with
                stored := ⟨destAddr, frameOf pte, bytes.length⟩ :: s.trace.stored } }
            if readBytes ≠ chunkSize then (s, .failed)
            else
              elfCopyLoop file pd rounds (wrap32 (destAddr + chunkSize))
                (wrap32 (offsetInFile + chunkSize)) (bytesToCopy - chunkSize) s

/-- The copy loop with its bound. -/
def elfCopy (file : VfsFile) (pd destAddr offsetInFile bytesToCopy : Nat) (s : ElfState) :
    ElfState × ElfStatus :=
  elfCopyLoop file pd bytesToCopy destAddr offsetInFile bytesToCopy s

/-- The part of a loadable segment before the copy loop: its area and its pages. -/
def elfPrepare (pd : Nat) (h : Elf32Phdr) (s : ElfState) : ElfState × ElfStatus :=
  match vmaAdd s.vmaHead h.pVaddr h.memEnd h.vmaFlags s.kmallocs with
  | (vmaHead, ret, kmallocs) =>
    let s := { s with vmaHead := vmaHead, kmallocs := kmallocs }
    if ret ≠ 0 then (s, .failed) else elfMapPages pd h.pteFlags h.pages s

/-- One program header. -/
def elfSegment (file : VfsFile) (pd : Nat) (h : Elf32Phdr) (s : ElfState) :
    ElfState × ElfStatus :=
  if h.pType ≠ ptLoad then (s, .ok)
  else
    match elfPrepare pd h s with
    | (s, .ok) => elfCopy file pd h.pVaddr h.pOffset h.copySize s
    | (s, status) => (s, status)

/-- The loop over the program headers. -/
def elfSegments (file : VfsFile) (pd : Nat) (header : Elf32Header) :
    List Nat → ElfState → ElfState × ElfStatus
  | [], s => (s, .ok)
  | i :: rest, s =>
    match elfPhdr file header i with
    | none => (s, .failed)
    | some h =>
      match elfSegment file pd h s with
      | (s, .ok) => elfSegments file pd header rest s
      | (s, status) => (s, status)

/-- The ELF header, when it can be read and passes the checks. -/
def elfHeader (file : VfsFile) : Option Elf32Header :=
  match file.read 0 elf32HeaderSize with
  | (bytesRead, bytes) =>
    let header := Elf32Header.ofBytes bytes
    if bytesRead ≠ elf32HeaderSize then none
    else if header.magic ≠ elfMagic then none
    else if header.eType ≠ etExec then none
    else if header.eMachine ≠ em386 then none
    else some header

/-- A load that has done nothing yet. -/
def ElfState.start (m : Machine) (k : Kmalloc) : ElfState :=
  ⟨m, [], k, ⟨[], [], []⟩⟩

/-- `elf_load` into the directory `pd` of a temporary task without
areas: the final state, how the load ended, and the entry point, which is 0 on
failure. -/
def elfLoad (file : VfsFile) (pd : Nat) (m : Machine) (k : Kmalloc) :
    ElfState × ElfStatus × Nat :=
  match elfHeader file with
  | none => (.start m k, .failed, 0)
  | some header =>
    match elfSegments file pd header (List.range header.ePhnum) (.start m k) with
    | (s, .ok) => (s, .ok, header.eEntry)
    | (s, status) => (s, status, 0)

end EnclaveOS
