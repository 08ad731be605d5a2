import EnclaveOS.Config
import Mathlib.Data.Nat.Log

/-!
# Heap - the buddy allocator of the kernel

`kmalloc` and `kfree` of `heap.c`: the implicit binary tree over the
heap window and the block headers in memory.  The words of the window are a
function of their address; callers write them between the calls.
-/

namespace EnclaveOS

/-- The `NODE_*` constants. -/
inductive HeapNode
  | unused
  | free
  | alloc
  | split
  deriving DecidableEq

/-- `tree`, by node index. -/
abbrev HeapTree := Nat → HeapNode

def maxOrder : Nat := 15
def treeSize : Nat := 65536
def blockHeaderSize : Nat := 8
def headerMagic : Nat := 0xDEADBEEF

/-- The state of `heap.c` and the words of the heap window. -/
structure HeapState where
  tree : HeapTree
  mem : Nat → Nat
  totalAllocs : Nat
  totalFrees : Nat

def HeapState.store (s : HeapState) (addr value : Nat) : HeapState :=
  { s with mem := Function.update s.mem addr value }

/-- `heap_init`. -/
def heapInit (mem : Nat → Nat) : HeapState where
  tree := Function.update (fun _ => .unused) 1 .free
  mem := mem
  totalAllocs := 0
  totalFrees := 0

/-- `get_depth`. -/
def getDepth (node : Nat) : Nat := Nat.log2 node

/-- `find_free`.  No node of level 0 is ever split, so the descent ends there. -/
def findFree (tree : HeapTree) (target : Nat) : (level node : Nat) → Option Nat
  | level, node =>
    match tree node with
    | .alloc => none
    | .free => some node
    | .unused => none
    | .split =>
      if level = target then none
      else
        match level with
        | 0 => none
        | level + 1 =>
          match findFree tree target level (node * 2) with
          | some left => some left
          | none => findFree tree target level (node * 2 + 1)

/-- The loop of `kmalloc` that finds the block size and its level. -/
def blockFor (reqSize : Nat) : (rounds blockSize level : Nat) → Nat × Nat
  | 0, blockSize, level => (blockSize, level)
  | rounds + 1, blockSize, level =>
    if blockSize < reqSize then blockFor reqSize rounds (blockSize * 2) (level + 1)
    else (blockSize, level)

/-- The loop of `kmalloc` that halves the block found. -/
def splitDown : (rounds : Nat) → HeapTree → Nat → HeapTree × Nat
  | 0, tree, curr => (tree, curr)
  | rounds + 1, tree, curr =>
    splitDown rounds (Function.update (Function.update tree curr .split) (curr * 2 + 1) .free)
      (curr * 2)

/-- `kmalloc`; the result 0 is `NULL`. -/
def kmalloc (s : HeapState) (size : Nat) : HeapState × Nat :=
  if size = 0 ∨ kernelHeapSize < size then (s, 0)
  else
    let reqSize := size + blockHeaderSize
    let (blockSize, targetLevel) := blockFor reqSize maxOrder 4096 0
    if blockSize < reqSize then (s, 0)
    else
      match findFree s.tree targetLevel maxOrder 1 with
      | none => (s, 0)
      | some node =>
        let currLevel := maxOrder - getDepth node
        let (tree, curr) := splitDown (currLevel - targetLevel) s.tree node
        let blockIndex := curr - 2 ^ getDepth curr
        let virtAddr := kernelHeapVirt + blockIndex * blockSize
        let s := { s with
          tree := Function.update tree curr .alloc
          totalAllocs := wrap32 (s.totalAllocs + 1) }
        (((s.store virtAddr blockSize).store (virtAddr + 4) headerMagic),
          virtAddr + blockHeaderSize)

/-- The loop of `kfree` that finds the level of a block size: after 20 rounds
`temp_size` is 0 for good, so a loop of more rounds does not end. -/
def levelOf (blockSize : Nat) : (rounds tempSize level : Nat) → Option Nat
  | 0, _, _ => none
  | rounds + 1, tempSize, level =>
    if tempSize < blockSize then levelOf blockSize rounds (wrap32 (tempSize * 2)) (level + 1)
    else some level

/-- The coalescing loop of `kfree`; a node has at most 15 ancestors. -/
def coalesce : (rounds : Nat) → HeapTree → Nat → HeapTree
  | 0, tree, _ => tree
  | rounds + 1, tree, curr =>
    if 1 < curr then
      let buddy := curr ^^^ 1
      let parent := curr / 2
      if tree buddy = .free then
        coalesce rounds (Function.update (Function.update (Function.update tree curr .unused)
          buddy .unused) parent .free) parent
      else tree
    else tree

/-- `kfree`; `none` is a loop without end, a division by zero, or an index
outside of the tree, which only a header overwritten by a caller leads to. -/
def kfree (s : HeapState) (ptr : Nat) : Option HeapState :=
  if ptr = 0 then some s
  else
    let virtAddr := wrap32 (ptr + (4294967296 - blockHeaderSize))
    if virtAddr < kernelHeapVirt ∨ kernelHeapEnd ≤ virtAddr then some s
    else if s.mem (virtAddr + 4) ≠ headerMagic then some s
    else do
      let blockSize := s.mem virtAddr
      let offset := virtAddr - kernelHeapVirt
      let targetLevel ← levelOf blockSize 33 4096 0
      let curr := 2 ^ (maxOrder - targetLevel) + offset / blockSize
      if maxOrder < targetLevel ∨ blockSize = 0 ∨ treeSize ≤ curr then none
      else
        let s := { s.store (virtAddr + 4) 0 with totalFrees := wrap32 (s.totalFrees + 1) }
        some { s with tree := coalesce maxOrder (Function.update s.tree curr .free) curr }

/-- A pointer that `kmalloc` returned, and the size it was asked for. -/
structure LiveBlock where
  ptr : Nat
  size : Nat

/-- The size of the block that `kmalloc` takes for a request. -/
def LiveBlock.blockSize (b : LiveBlock) : Nat :=
  (blockFor (b.size + blockHeaderSize) maxOrder 4096 0).1

/-- The address of the header. -/
def LiveBlock.start (b : LiveBlock) : Nat := b.ptr - blockHeaderSize

/-- The heap and the pointers that are not freed yet. -/
structure HeapWorld where
  heap : HeapState
  live : List LiveBlock

/-- A call, or a write of a caller. -/
inductive HeapOp
  | kmalloc (size : Nat)
  | kfree (ptr : Nat)
  | write (addr value : Nat)

def HeapOp.step (w : HeapWorld) : HeapOp → Option HeapWorld
  | .kmalloc size =>
    let (heap, ptr) := EnclaveOS.kmalloc w.heap size
    some ⟨heap, if ptr = 0 then w.live else ⟨ptr, size⟩ :: w.live⟩
  | .kfree ptr =>
    (EnclaveOS.kfree w.heap ptr).map fun heap => ⟨heap, w.live.filter fun b => b.ptr ≠ ptr⟩
  | .write addr value => some { w with heap := w.heap.store addr value }

/-- Any size is asked for, live pointers are freed, and callers write words of their
blocks. -/
def HeapOp.Possible (w : HeapWorld) : HeapOp → Prop
  | .kmalloc _ => True
  | .kfree ptr => ∃ b ∈ w.live, b.ptr = ptr
  | .write addr _ =>
    ∃ b ∈ w.live, addr % 4 = 0 ∧ b.ptr ≤ addr ∧ addr + 4 ≤ b.start + b.blockSize

/-- The heap after `heap_init`, in a memory of any contents. -/
def HeapWorld.init (mem : Nat → Nat) : HeapWorld := ⟨heapInit mem, []⟩

end EnclaveOS
