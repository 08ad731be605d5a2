import EnclaveOS.Config
import EnclaveOS.Foundation.ByteMemory
import EnclaveOS.Foundation.Run

/-!
# BumpHeap - malloc, calloc, realloc and free of the user library

The allocator of `user_libc.c`.  Every block stands behind a header at the end of the heap,
and the kernel moves the break; what `sys_brk` answers to a new break is left open.  All
sizes and addresses are computed modulo `2 ^ 32`.
-/

namespace EnclaveOS

open ByteMemory PageWord

/-- The variables of the library, the memory, and the break that the kernel keeps. -/
structure BumpHeap where
  heapEnd : Nat
  errno : Nat
  brk : Nat
  mem : Bytes

namespace BumpHeap

def enomem : Nat := 12

def mallocMagic : BitVec 32 := 0xA110CA7E

/-- `sys_brk`: the break for 0; a new break inside the heap window is set if the kernel
accepts it. -/
def sysBrk (accept : Bool) (h : BumpHeap) (n : Nat) : Int × BumpHeap :=
  if n = 0 then (h.brk, h)
  else if accept ∧ userHeapStart ≤ n ∧ n ≤ userHeapStart + userHeapMaxSize then
    (0, { h with brk := n })
  else (-enomem, h)

/-- `heap_init_if_needed`. -/
def initIfNeeded (h : BumpHeap) : BumpHeap :=
  if h.heapEnd = 0 then { h with heapEnd := (h.sysBrk false 0).1.toNat } else h

/-- `(size + 7) & ~7`. -/
def alignedSize (size : Nat) : Nat := wrap32 (size + 7) / 8 * 8

/-- `new_end`. -/
def newEnd (h : BumpHeap) (size : Nat) : Nat :=
  wrap32 (h.heapEnd + wrap32 (8 + alignedSize size))

/-- `malloc`; the result 0 is `NULL`. -/
def malloc (accept : Bool) (h : BumpHeap) (size : Nat) : Nat × BumpHeap :=
  if size = 0 then (0, h)
  else
    let h := h.initIfNeeded
    let newEnd := h.newEnd size
    let (result, h) := h.sysBrk accept newEnd
    if result < 0 then (0, { h with errno := enomem })
    else
      let mem := storeWord h.mem h.heapEnd (BitVec.ofNat 32 size)
      let mem := storeWord mem (wrap32 (h.heapEnd + 4)) mallocMagic
      (wrap32 (h.heapEnd + 8), { h with mem := mem, heapEnd := newEnd })

/-- `calloc`. -/
def calloc (accept : Bool) (h : BumpHeap) (nmemb size : Nat) : Nat × BumpHeap :=
  let total := wrap32 (nmemb * size)
  if total = 0 then (0, h)
  else if nmemb ≠ 0 ∧ total / nmemb ≠ size then (0, { h with errno := enomem })
  else
    let (ptr, h) := malloc accept h total
    if ptr ≠ 0 then (ptr, { h with mem := storeBytes h.mem ptr (List.replicate total 0) })
    else (ptr, h)

/-- `old_size`, from the header in front of a block. -/
def oldSize (mem : Bytes) (ptr : Nat) : Nat :=
  let hdr := wrap32 (ptr + 4294967288)
  if loadWord mem (wrap32 (hdr + 4)) = mallocMagic then (loadWord mem hdr).toNat else 0

/-- `realloc`. -/
def realloc (accept : Bool) (h : BumpHeap) (ptr size : Nat) : Nat × BumpHeap :=
  if ptr = 0 then malloc accept h size
  else if size = 0 then (0, h)
  else
    let oldSize := oldSize h.mem ptr
    let (newPtr, h) := malloc accept h size
    if newPtr = 0 then (0, h)
    else
      let copySize := if oldSize < size then oldSize else size
      (newPtr, { h with mem := copy h.mem newPtr ptr copySize })

/-- `free`. -/
def free (h : BumpHeap) (_ptr : Nat) : BumpHeap := h

/-- A call, or a byte that the program writes. -/
inductive HeapCall where
  | malloc (size : Nat)
  | calloc (nmemb size : Nat)
  | realloc (ptr size : Nat)
  | free (ptr : Nat)
  | write (p : Nat) (b : BitVec 8)

/-- The pointer that a call returns. -/
def callHeap (accept : Bool) (h : BumpHeap) : HeapCall → Nat × BumpHeap
  | .malloc size => malloc accept h size
  | .calloc nmemb size => calloc accept h nmemb size
  | .realloc ptr size => realloc accept h ptr size
  | .free ptr => (0, free h ptr)
  | .write p b => (0, { h with mem := Function.update h.mem p b })

/-- The bytes that a call asks for. -/
def requested : HeapCall → Nat
  | .malloc size => size
  | .calloc nmemb size => nmemb * size
  | .realloc _ size => size
  | .free _ => 0
  | .write _ _ => 0

/-- A block that was returned: its address, and the bytes that were asked for. -/
structure Block where
  ptr : Nat
  size : Nat

/-- The heap of a program, and the blocks so far. -/
structure HeapRun where
  heap : BumpHeap
  blocks : List Block

/-- A call, with the answer of the kernel. -/
def stepHeap (r : HeapRun) (i : Bool × HeapCall) : HeapRun :=
  let (ptr, heap) := callHeap i.1 r.heap i.2
  ⟨heap, if ptr = 0 then r.blocks else ⟨ptr, requested i.2⟩ :: r.blocks⟩

/-- What a program may do: sizes are 32-bit numbers, `realloc` gets `NULL` or a block,
and nothing of the heap is written but the blocks. -/
def Permitted (r : HeapRun) : HeapCall → Prop
  | .malloc size => size < 4294967296
  | .calloc nmemb size => nmemb < 4294967296 ∧ size < 4294967296
  | .realloc ptr size => size < 4294967296 ∧ (ptr = 0 ∨ ∃ b ∈ r.blocks, b.ptr = ptr)
  | .free _ => True
  | .write p _ => (∃ b ∈ r.blocks, b.ptr ≤ p ∧ p < b.ptr + b.size) ∨
      p < userHeapStart ∨ r.heap.brk ≤ p

/-- The size that a call passes to `malloc`. -/
def passedSize : HeapCall → Nat
  | .malloc size => size
  | .calloc nmemb size =>
    if wrap32 (nmemb * size) / nmemb ≠ size then 0 else wrap32 (nmemb * size)
  | .realloc _ size => size
  | .free _ => 0
  | .write _ _ => 0

/-- The new end of the heap does not wrap around, or the kernel refuses it. -/
def FitsEnd (accept : Bool) (h : BumpHeap) (size : Nat) : Prop :=
  h.initIfNeeded.heapEnd + (8 + (size + 7) / 8 * 8) < 4294967296 ∨
    (h.initIfNeeded.sysBrk accept (h.initIfNeeded.newEnd size)).1 < 0

/-- A heap before the first call. -/
def HeapStart (r : HeapRun) : Prop :=
  r.heap.heapEnd = 0 ∧ r.blocks = [] ∧ userHeapStart ≤ r.heap.brk ∧
    r.heap.brk ≤ userHeapStart + userHeapMaxSize

section Malloc

variable {accept : Bool} {h : BumpHeap} {size : Nat}

/-- The break is in the heap window, and it is the end of the heap once there is one. -/
structure InWindow (h : BumpHeap) : Prop where
  low : userHeapStart ≤ h.brk
  high : h.brk ≤ userHeapStart + userHeapMaxSize
  ended : h.heapEnd = h.brk ∨ h.heapEnd = 0

/-- The heap behind a header and a block at the break. -/
def bumped (h : BumpHeap) (size : Nat) : BumpHeap where
  heapEnd := h.brk + 8 + (size + 7) / 8 * 8
  errno := h.errno
  brk := h.brk + 8 + (size + 7) / 8 * 8
  mem := storeWord (storeWord h.mem h.brk (BitVec.ofNat 32 size)) (h.brk + 4) mallocMagic

theorem InWindow.initIfNeeded (hw : InWindow h) :
    h.initIfNeeded = { h with heapEnd := h.brk } := by
  unfold BumpHeap.initIfNeeded
  split_ifs with hzero
  · rfl
  · exact congrArg (fun heapEnd => ({ h with heapEnd := heapEnd } : BumpHeap))
      (hw.ended.resolve_right hzero)

/-- A call that does not wrap around puts a block at the break, or changes neither the break nor
the memory. -/
theorem malloc_cases (hw : InWindow h) (hfits : FitsEnd accept h size) :
    (∃ heapEnd errno, (heapEnd = h.brk ∨ heapEnd = 0) ∧
        malloc accept h size = (0, { h with heapEnd := heapEnd, errno := errno })) ∨
      0 < size ∧ h.brk + 8 + (size + 7) / 8 * 8 ≤ userHeapStart + userHeapMaxSize ∧
        malloc accept h size = (h.brk + 8, bumped h size) := by
  have hlow := hw.low
  have hhigh := hw.high
  simp only [userHeapStart, userHeapMaxSize] at hlow hhigh
  by_cases hsize : size = 0
  · exact Or.inl ⟨h.heapEnd, h.errno, hw.ended, by rw [malloc, if_pos hsize]⟩
  by_cases hrefused : (h.initIfNeeded.sysBrk accept (h.initIfNeeded.newEnd size)).1 < 0
  · refine Or.inl ⟨h.brk, enomem, Or.inl rfl, ?_⟩
    have hunchanged : (h.initIfNeeded.sysBrk accept (h.initIfNeeded.newEnd size)).2 =
        h.initIfNeeded := by
      unfold sysBrk at hrefused ⊢
      split_ifs at hrefused ⊢
      · rfl
      · exact absurd hrefused (lt_irrefl (0 : Int))
      · rfl
    rw [malloc, if_neg hsize]
    simp only [hrefused, if_true, hunchanged]
    rw [hw.initIfNeeded]
  · have hend := hfits.resolve_right hrefused
    rw [hw.initIfNeeded] at hend hrefused
    change h.brk + (8 + (size + 7) / 8 * 8) < 4294967296 at hend
    have hnew : newEnd { h with heapEnd := h.brk } size = h.brk + 8 + (size + 7) / 8 * 8 := by
      change wrap32 (h.brk + wrap32 (8 + wrap32 (size + 7) / 8 * 8)) = _
      unfold wrap32
      omega
    rw [hnew] at hrefused
    have hbrk : sysBrk accept { h with heapEnd := h.brk } (h.brk + 8 + (size + 7) / 8 * 8) =
        (0, { h with heapEnd := h.brk, brk := h.brk + 8 + (size + 7) / 8 * 8 }) ∧
        h.brk + 8 + (size + 7) / 8 * 8 ≤ userHeapStart + userHeapMaxSize := by
      unfold sysBrk at hrefused ⊢
      rw [if_neg (by omega)] at hrefused ⊢
      split_ifs at hrefused ⊢ with haccept
      · exact ⟨rfl, haccept.2.2⟩
      · exact absurd (by decide : (-(enomem : Int)) < 0) hrefused
    have hword : wrap32 (h.brk + 4) = h.brk + 4 := Nat.mod_eq_of_lt (by omega)
    have hptr : wrap32 (h.brk + 8) = h.brk + 8 := Nat.mod_eq_of_lt (by omega)
    refine Or.inr ⟨Nat.pos_of_ne_zero hsize, hbrk.2, ?_⟩
    rw [malloc, if_neg hsize]
    simp only [hw.initIfNeeded, hnew, hbrk.1, hword, hptr]
    rfl

end Malloc

section Blocks

variable {r : HeapRun} {b c : Block}

/-- A block starts behind the older one and a header. -/
def Behind (b c : Block) : Prop := c.ptr + c.size + 8 ≤ b.ptr

/-- The blocks lie below the break, the newest one first, and every one behind its header. -/
structure HeapSound (r : HeapRun) : Prop where
  window : InWindow r.heap
  low : ∀ b ∈ r.blocks, userHeapStart + 8 ≤ b.ptr
  below : ∀ b ∈ r.blocks, b.ptr + b.size ≤ r.heap.brk
  behind : r.blocks.Pairwise Behind
  short : ∀ b ∈ r.blocks, b.size < 4294967296
  headers : ∀ b ∈ r.blocks, loadWord r.heap.mem (b.ptr - 8) = BitVec.ofNat 32 b.size ∧
    loadWord r.heap.mem (b.ptr - 4) = mallocMagic

/-- A block does not overlap the header of `c`. -/
def OffHeader (b c : Block) : Prop := c.ptr ≤ b.ptr ∨ b.ptr + b.size + 8 ≤ c.ptr

theorem HeapSound.offHeader (h : HeapSound r) (hb : b ∈ r.blocks) (hc : c ∈ r.blocks) :
    OffHeader b c := by
  have hnewer : r.blocks.Pairwise OffHeader := h.behind.imp fun {b c} hbehind => by
    unfold Behind at hbehind
    unfold OffHeader
    omega
  have holder : r.blocks.Pairwise (flip OffHeader) :=
    h.behind.imp fun {b c} hbehind => Or.inr hbehind
  have hself : ∀ b ∈ r.blocks, OffHeader b b := fun _ _ => Or.inl le_rfl
  exact hnewer.forall_of_forall_of_flip hself holder hb hc

/-- A memory with the same headers. -/
theorem HeapSound.rewrite (h : HeapSound r) {mem : Bytes}
    (hmem : ∀ b ∈ r.blocks, ∀ k, b.ptr - 8 ≤ k → k < b.ptr → mem k = r.heap.mem k) :
    HeapSound ⟨{ r.heap with mem := mem }, r.blocks⟩ := by
  refine ⟨⟨h.window.low, h.window.high, h.window.ended⟩, h.low, h.below, h.behind, h.short, ?_⟩
  intro b hb
  have hlow := h.low b hb
  have hsize : loadWord mem (b.ptr - 8) = loadWord r.heap.mem (b.ptr - 8) :=
    loadWord_congr fun i hi => hmem b hb _ (by omega) (by omega)
  have hmagic : loadWord mem (b.ptr - 4) = loadWord r.heap.mem (b.ptr - 4) :=
    loadWord_congr fun i hi => hmem b hb _ (by omega) (by omega)
  change loadWord mem (b.ptr - 8) = _ ∧ loadWord mem (b.ptr - 4) = _
  rw [hsize, hmagic]
  exact h.headers b hb

theorem HeapSound.variables (h : HeapSound r) {heapEnd errno : Nat}
    (hend : heapEnd = r.heap.brk ∨ heapEnd = 0) :
    HeapSound ⟨{ r.heap with heapEnd := heapEnd, errno := errno }, r.blocks⟩ :=
  ⟨⟨h.window.low, h.window.high, hend⟩, h.low, h.below, h.behind, h.short, h.headers⟩

/-- One more block. -/
theorem HeapSound.bumped (h : HeapSound r) {size : Nat} (hshort : size < 4294967296)
    (hend : r.heap.brk + 8 + (size + 7) / 8 * 8 ≤ userHeapStart + userHeapMaxSize) :
    HeapSound ⟨r.heap.bumped size, ⟨r.heap.brk + 8, size⟩ :: r.blocks⟩ := by
  have hlow := h.window.low
  refine ⟨⟨?_, hend, Or.inl rfl⟩, ?_, ?_, ?_, ?_, ?_⟩
  · change userHeapStart ≤ r.heap.brk + 8 + (size + 7) / 8 * 8
    omega
  · intro b hb
    cases List.mem_cons.mp hb with
    | inl hnew =>
      subst hnew
      exact Nat.add_le_add_right hlow 8
    | inr hold => exact h.low b hold
  · intro b hb
    change b.ptr + b.size ≤ r.heap.brk + 8 + (size + 7) / 8 * 8
    cases List.mem_cons.mp hb with
    | inl hnew =>
      subst hnew
      change r.heap.brk + 8 + size ≤ _
      omega
    | inr hold =>
      have hbelow := h.below b hold
      omega
  · refine List.pairwise_cons.mpr ⟨fun b hb => ?_, h.behind⟩
    exact Nat.add_le_add_right (h.below b hb) 8
  · intro b hb
    cases List.mem_cons.mp hb with
    | inl hnew => rw [hnew]; exact hshort
    | inr hold => exact h.short b hold
  · intro b hb
    cases List.mem_cons.mp hb with
    | inl hnew =>
      subst hnew
      constructor
      · change loadWord (storeWord (storeWord r.heap.mem r.heap.brk _) (r.heap.brk + 4) _)
          (r.heap.brk + 8 - 8) = _
        rw [Nat.add_sub_cancel, loadWord_storeWord_of_disjoint (Or.inl le_rfl), loadWord_storeWord]
      · exact loadWord_storeWord _
    | inr hold =>
      have hbelow := h.below b hold
      have hfirst := h.low b hold
      have hkeeps : ∀ a, a + 4 ≤ b.ptr →
          loadWord (r.heap.bumped size).mem a = loadWord r.heap.mem a := by
        intro a ha
        exact (loadWord_storeWord_of_disjoint (Or.inl (by omega))).trans
          (loadWord_storeWord_of_disjoint (Or.inl (by omega)))
      rw [hkeeps _ (by omega), hkeeps _ (by omega)]
      exact h.headers b hold

end Blocks

section Serving

variable {r : HeapRun} {accept : Bool}

/-- What a call promises if it returns a block: the bytes are below the break, apart from every
earlier block and from all headers; those of `calloc` are zero, and `realloc` keeps the
bytes that both blocks have. -/
structure Served (r : HeapRun) (accept : Bool) (call : HeapCall) (ptr : Nat) (r' : HeapRun) :
    Prop where
  below : ptr + requested call ≤ r'.heap.brk
  earlier : ∀ b ∈ r.blocks, b.ptr + b.size ≤ ptr
  headers : ∀ b ∈ r'.blocks, b.ptr ≤ ptr ∨ ptr + requested call + 8 ≤ b.ptr
  zero : ∀ nmemb size, call = .calloc nmemb size → ∀ k < nmemb * size, r'.heap.mem (ptr + k) = 0
  kept : ∀ old size, call = .realloc old size → ∀ b ∈ r.blocks, b.ptr = old →
    ∀ k < min b.size size, r'.heap.mem (ptr + k) = r.heap.mem (old + k)

/-- A call that writes the new block only. -/
theorem HeapSound.serve (h : HeapSound r) {size : Nat} {mem : Bytes}
    (hshort : size < 4294967296)
    (hend : r.heap.brk + 8 + (size + 7) / 8 * 8 ≤ userHeapStart + userHeapMaxSize)
    (hmem : ∀ k, k < r.heap.brk + 8 ∨ r.heap.brk + 8 + size ≤ k →
      mem k = (r.heap.bumped size).mem k) :
    HeapSound ⟨{ r.heap.bumped size with mem := mem }, ⟨r.heap.brk + 8, size⟩ :: r.blocks⟩ := by
  apply (h.bumped hshort hend).rewrite
  intro b hb k hfrom hto
  apply hmem
  cases List.mem_cons.mp hb with
  | inl hnew =>
    subst hnew
    exact Or.inl hto
  | inr hold =>
    have hbelow := h.below b hold
    omega

/-- What all three functions promise. -/
theorem HeapSound.served (h : HeapSound r) {call : HeapCall} {size : Nat} {mem : Bytes}
    (hrequested : requested call = size)
    (hzero : ∀ nmemb size, call = .calloc nmemb size → ∀ k < nmemb * size,
      mem (r.heap.brk + 8 + k) = 0)
    (hkept : ∀ old size, call = .realloc old size → ∀ b ∈ r.blocks, b.ptr = old →
      ∀ k < min b.size size, mem (r.heap.brk + 8 + k) = r.heap.mem (old + k)) :
    Served r accept call (r.heap.brk + 8)
      ⟨{ r.heap.bumped size with mem := mem }, ⟨r.heap.brk + 8, size⟩ :: r.blocks⟩ := by
  refine ⟨?_, ?_, ?_, hzero, hkept⟩
  · rw [hrequested]
    change r.heap.brk + 8 + size ≤ r.heap.brk + 8 + (size + 7) / 8 * 8
    omega
  · intro b hb
    have hbelow := h.below b hb
    omega
  · intro b hb
    left
    cases List.mem_cons.mp hb with
    | inl hnew => rw [hnew]
    | inr hold =>
      have hbelow := h.below b hold
      omega

/-- A product that `calloc` passes on does not wrap around. -/
theorem calloc_total {nmemb size : Nat}
    (hchecked : wrap32 (nmemb * size) / nmemb = size) : wrap32 (nmemb * size) = nmemb * size := by
  apply Nat.le_antisymm (Nat.mod_le _ _)
  have hmul := Nat.mul_div_le (wrap32 (nmemb * size)) nmemb
  rwa [hchecked] at hmul

/-- The size in the header of a block. -/
theorem HeapSound.oldSize (h : HeapSound r) {b : Block} (hb : b ∈ r.blocks) :
    oldSize r.heap.mem b.ptr = b.size := by
  have hlow := h.low b hb
  have hbelow := h.below b hb
  have hhigh := h.window.high
  simp only [userHeapStart, userHeapMaxSize] at hlow hhigh
  obtain ⟨hsize, hmagic⟩ := h.headers b hb
  have hhdr : wrap32 (b.ptr + 4294967288) = b.ptr - 8 := by
    unfold wrap32
    omega
  have hword : wrap32 (b.ptr - 8 + 4) = b.ptr - 4 := by
    unfold wrap32
    omega
  rw [BumpHeap.oldSize]
  simp only [hhdr, hword, hmagic, if_true, hsize, BitVec.toNat_ofNat]
  exact Nat.mod_eq_of_lt (h.short b hb)

/-- What a step does to the blocks, and what the call returns. -/
def StepOk (r : HeapRun) (accept : Bool) (call : HeapCall) : Prop :=
  HeapSound (stepHeap r (accept, call)) ∧
    ((callHeap accept r.heap call).1 ≠ 0 →
      Served r accept call (callHeap accept r.heap call).1 (stepHeap r (accept, call)))

/-- A call that returns no block and leaves break and memory. -/
theorem HeapSound.stepOk_none (h : HeapSound r) {call : HeapCall} {heapEnd errno : Nat}
    (hend : heapEnd = r.heap.brk ∨ heapEnd = 0)
    (hcall : callHeap accept r.heap call =
      (0, { r.heap with heapEnd := heapEnd, errno := errno })) : StepOk r accept call := by
  constructor
  · rw [stepHeap, hcall]
    exact h.variables hend
  · rw [hcall]
    exact fun hne => absurd rfl hne

/-- A call that returns a new block. -/
theorem HeapSound.stepOk_block (h : HeapSound r) {call : HeapCall} {size : Nat} {mem : Bytes}
    (hshort : size < 4294967296)
    (hend : r.heap.brk + 8 + (size + 7) / 8 * 8 ≤ userHeapStart + userHeapMaxSize)
    (hrequested : requested call = size)
    (hcall : callHeap accept r.heap call =
      (r.heap.brk + 8, { r.heap.bumped size with mem := mem }))
    (hmem : ∀ k, k < r.heap.brk + 8 ∨ r.heap.brk + 8 + size ≤ k →
      mem k = (r.heap.bumped size).mem k)
    (hzero : ∀ nmemb size, call = .calloc nmemb size → ∀ k < nmemb * size,
      mem (r.heap.brk + 8 + k) = 0)
    (hkept : ∀ old size, call = .realloc old size → ∀ b ∈ r.blocks, b.ptr = old →
      ∀ k < min b.size size, mem (r.heap.brk + 8 + k) = r.heap.mem (old + k)) :
    StepOk r accept call := by
  have hstep : stepHeap r (accept, call) =
      ⟨{ r.heap.bumped size with mem := mem }, ⟨r.heap.brk + 8, size⟩ :: r.blocks⟩ := by
    rw [stepHeap, hcall, hrequested]
    rfl
  constructor
  · rw [hstep]
    exact h.serve hshort hend hmem
  · intro _
    rw [hstep, hcall]
    exact h.served hrequested hzero hkept

theorem HeapSound.malloc (h : HeapSound r) {size : Nat} (hshort : size < 4294967296)
    (hfits : FitsEnd accept r.heap size) : StepOk r accept (.malloc size) := by
  rcases malloc_cases h.window hfits with ⟨heapEnd, errno, hended, hcall⟩ | ⟨hsize, hend, hcall⟩
  · exact h.stepOk_none hended hcall
  · exact h.stepOk_block hshort hend rfl hcall (fun _ _ => rfl) nofun nofun

theorem HeapSound.calloc (h : HeapSound r) {nmemb size : Nat}
    (hfits : FitsEnd accept r.heap (passedSize (.calloc nmemb size))) :
    StepOk r accept (.calloc nmemb size) := by
  by_cases htotal : wrap32 (nmemb * size) = 0
  · have hcall : callHeap accept r.heap (.calloc nmemb size) = (0, r.heap) := by
      rw [callHeap, BumpHeap.calloc]
      exact if_pos htotal
    exact h.stepOk_none h.window.ended hcall
  by_cases hchecked : wrap32 (nmemb * size) / nmemb = size
  · have hproduct := calloc_total hchecked
    have hpassed : ¬(nmemb ≠ 0 ∧ wrap32 (nmemb * size) / nmemb ≠ size) := by
      rintro ⟨-, hne⟩
      exact hne hchecked
    rw [passedSize, if_neg (not_not.mpr hchecked)] at hfits
    rcases malloc_cases h.window hfits with ⟨heapEnd, errno, hended, hmalloc⟩ |
      ⟨hsize, hend, hmalloc⟩
    · have hcall : callHeap accept r.heap (.calloc nmemb size) =
          (0, { r.heap with heapEnd := heapEnd, errno := errno }) := by
        rw [callHeap, BumpHeap.calloc]
        simp only [if_neg htotal, if_neg hpassed, hmalloc, ne_eq, not_true_eq_false, if_false]
      exact h.stepOk_none hended hcall
    · have hnonzero : r.heap.brk + 8 ≠ 0 := by omega
      have hshort : wrap32 (nmemb * size) < 4294967296 := Nat.mod_lt _ (by decide)
      have hlength : (List.replicate (wrap32 (nmemb * size)) (0 : BitVec 8)).length =
          wrap32 (nmemb * size) := List.length_replicate
      have hcall : callHeap accept r.heap (.calloc nmemb size) =
          (r.heap.brk + 8, { r.heap.bumped (wrap32 (nmemb * size)) with
            mem := storeBytes (r.heap.bumped (wrap32 (nmemb * size))).mem (r.heap.brk + 8)
              (List.replicate (wrap32 (nmemb * size)) 0) }) := by
        rw [callHeap, BumpHeap.calloc]
        simp only [if_neg htotal, if_neg hpassed, hmalloc, ne_eq, hnonzero, not_false_eq_true,
          if_true]
      have hrequested : requested (.calloc nmemb size) = wrap32 (nmemb * size) := hproduct.symm
      apply h.stepOk_block hshort hend hrequested hcall
      · intro k hk
        exact storeBytes_of_outside (by rw [hlength]; exact hk)
      · rintro nmemb' size' heq k hk
        cases heq
        have hbyte := bytesAt_storeBytes (r.heap.bumped (wrap32 (nmemb * size))).mem
          (r.heap.brk + 8) (List.replicate (wrap32 (nmemb * size)) 0) k
          (by rw [hlength, hproduct]; exact hk)
        rw [hbyte, List.getElem_replicate]
      · nofun
  · have hnmemb : nmemb ≠ 0 := by
      rintro rfl
      exact htotal (by simp [wrap32])
    have hcall : callHeap accept r.heap (.calloc nmemb size) =
        (0, { r.heap with errno := enomem }) := by
      rw [callHeap, BumpHeap.calloc]
      exact (if_neg htotal).trans (if_pos ⟨hnmemb, hchecked⟩)
    exact h.stepOk_none h.window.ended hcall

theorem HeapSound.realloc (h : HeapSound r) {ptr size : Nat} (hshort : size < 4294967296)
    (hptr : ptr = 0 ∨ ∃ b ∈ r.blocks, b.ptr = ptr) (hfits : FitsEnd accept r.heap size) :
    StepOk r accept (.realloc ptr size) := by
  by_cases hnull : ptr = 0
  · -- no block is at NULL
    have hnone : ∀ b ∈ r.blocks, b.ptr ≠ 0 := by
      intro b hb hzero
      have hlow := h.low b hb
      omega
    have hcall : callHeap accept r.heap (.realloc ptr size) =
        BumpHeap.malloc accept r.heap size := by
      rw [callHeap, BumpHeap.realloc, if_pos hnull]
    rcases malloc_cases h.window hfits with ⟨heapEnd, errno, hended, hmalloc⟩ |
      ⟨hsize, hend, hmalloc⟩
    · exact h.stepOk_none hended (hcall.trans hmalloc)
    · refine h.stepOk_block hshort hend rfl (hcall.trans hmalloc) (fun _ _ => rfl) nofun ?_
      rintro old size' heq b hb hold
      cases heq
      exact absurd (hold.trans hnull) (hnone b hb)
  · obtain ⟨b, hb, rfl⟩ := hptr.resolve_left hnull
    by_cases hzero : size = 0
    · have hcall : callHeap accept r.heap (.realloc b.ptr size) = (0, r.heap) := by
        rw [callHeap, BumpHeap.realloc, if_neg hnull]
        exact if_pos hzero
      exact h.stepOk_none h.window.ended hcall
    · have hold := h.oldSize hb
      have hbelow := h.below b hb
      rcases malloc_cases h.window hfits with ⟨heapEnd, errno, hended, hmalloc⟩ |
        ⟨hsize, hend, hmalloc⟩
      · have hcall : callHeap accept r.heap (.realloc b.ptr size) =
            (0, { r.heap with heapEnd := heapEnd, errno := errno }) := by
          rw [callHeap, BumpHeap.realloc]
          simp only [if_neg hnull, if_neg hzero, hmalloc, if_true]
        exact h.stepOk_none hended hcall
      · have hnonzero : r.heap.brk + 8 ≠ 0 := by omega
        have hnum : (if b.size < size then b.size else size) = min b.size size := by
          split_ifs <;> omega
        have hbehind : r.heap.brk + 8 < b.ptr ∨ b.ptr + min b.size size ≤ r.heap.brk + 8 := by
          omega
        have hcopy := copy_apply (r.heap.bumped size).mem hbehind
        have hcall : callHeap accept r.heap (.realloc b.ptr size) =
            (r.heap.brk + 8, { r.heap.bumped size with
              mem := copy (r.heap.bumped size).mem (r.heap.brk + 8) b.ptr (min b.size size) }) := by
          rw [callHeap, BumpHeap.realloc]
          simp only [if_neg hnull, if_neg hzero, hmalloc, hnonzero, if_false, hold, hnum]
        apply h.stepOk_block hshort hend rfl hcall
        · intro k hk
          rw [hcopy, if_neg (by omega)]
        · nofun
        · rintro old size' heq c hc hptr k hk
          cases heq
          have hsame : c.size = b.size := by
            rw [← h.oldSize hc, hptr, hold]
          rw [hsame] at hk
          rw [hcopy, if_pos (by omega), Nat.add_sub_cancel_left]
          exact (storeWord_of_outside (by omega)).trans (storeWord_of_outside (by omega))

/-- A byte that the program writes is in no header. -/
theorem HeapSound.write (h : HeapSound r) {p : Nat} {b : BitVec 8}
    (hp : Permitted r (.write p b)) : StepOk r accept (.write p b) := by
  constructor
  · apply h.rewrite
    intro c hc k hfrom hto
    apply Function.update_of_ne
    rintro rfl
    have hlow := h.low c hc
    have hbelow := h.below c hc
    rcases hp with ⟨c', hc', hin⟩ | houtside
    · have hoff := h.offHeader hc' hc
      unfold OffHeader at hoff
      omega
    · omega
  · exact fun hne => absurd rfl hne

/-- One step. -/
theorem HeapSound.step (h : HeapSound r) {call : HeapCall} (hpermitted : Permitted r call)
    (hfits : FitsEnd accept r.heap (passedSize call)) : StepOk r accept call := by
  cases call with
  | malloc size => exact h.malloc hpermitted hfits
  | calloc nmemb size => exact h.calloc hfits
  | realloc ptr size => exact h.realloc hpermitted.1 hpermitted.2 hfits
  | free ptr => exact ⟨h, fun hne => absurd rfl hne⟩
  | write p b => exact h.write hpermitted

theorem HeapStart.sound (h : HeapStart r) : HeapSound r := by
  obtain ⟨hend, hnone, hlow, hhigh⟩ := h
  refine ⟨⟨hlow, hhigh, Or.inr hend⟩, ?_, ?_, ?_, ?_, ?_⟩ <;> rw [hnone] <;> simp

end Serving

/-- In every run whose calls do not wrap around, and after it: the blocks lie below the break,
apart from each other and from all headers, and every call that returns a block returns one of
the bytes asked for, zeroed by `calloc` and filled by `realloc`. -/
theorem heap_calls_served {r₀ r : HeapRun} (hstart : HeapStart r₀)
    (hrun : Reach (fun r i => some (stepHeap r i))
      (fun r i => Permitted r i.2 ∧ FitsEnd i.1 r.heap (passedSize i.2)) r₀ r) :
    HeapSound r ∧ ∀ accept call, Permitted r call → FitsEnd accept r.heap (passedSize call) →
      (callHeap accept r.heap call).1 ≠ 0 →
      Served r accept call (callHeap accept r.heap call).1 (stepHeap r (accept, call)) := by
  have hsound : HeapSound r := hrun.invariant hstart.sound fun s i s' hs hi hstep => by
    cases hstep
    exact (hs.step hi.1 hi.2).1
  exact ⟨hsound, fun accept call hpermitted hfits => (hsound.step hpermitted hfits).2⟩

/-- A heap whose break is the start of the heap window. -/
def emptyHeap : HeapRun := ⟨⟨0, 0, userHeapStart, fun _ => 0⟩, []⟩

/-- The first call asks for 100 bytes. -/
theorem heap_calls_served_first :
    HeapStart emptyHeap ∧
    HeapSound (stepHeap emptyHeap (true, .malloc 100)) ∧
    ∀ accept call, Permitted (stepHeap emptyHeap (true, .malloc 100)) call →
      FitsEnd accept (stepHeap emptyHeap (true, .malloc 100)).heap (passedSize call) →
      (callHeap accept (stepHeap emptyHeap (true, .malloc 100)).heap call).1 ≠ 0 →
      Served (stepHeap emptyHeap (true, .malloc 100)) accept call
        (callHeap accept (stepHeap emptyHeap (true, .malloc 100)).heap call).1
        (stepHeap (stepHeap emptyHeap (true, .malloc 100)) (accept, call)) := by
  have hstart : HeapStart emptyHeap := ⟨rfl, rfl, by decide, by decide⟩
  exact ⟨hstart, heap_calls_served hstart
    (.next .start ⟨by unfold Permitted; decide, Or.inl (by decide)⟩ rfl)⟩

/-- `malloc(0xFFFFFFF9)` returns a block of no bytes. -/
theorem malloc_wraps :
    (callHeap true emptyHeap.heap (.malloc 0xFFFFFFF9)).1 ≠ 0 ∧
      ¬Served emptyHeap true (.malloc 0xFFFFFFF9)
        (callHeap true emptyHeap.heap (.malloc 0xFFFFFFF9)).1
        (stepHeap emptyHeap (true, .malloc 0xFFFFFFF9)) := by
  refine ⟨by decide, fun h => ?_⟩
  exact absurd h.below (by decide)

end BumpHeap
end EnclaveOS
