import EnclaveOS.Foundation.Run
import EnclaveOS.Heap.HeapSpec
import Mathlib.Data.List.Nodup

/-!
# HeapRuns - the heap over every run of its callers

The array of the heap represents a canonical buddy tree whose taken blocks are the
live blocks, and the header of each live block holds its size.
-/

namespace EnclaveOS

/-- The loop of `kmalloc` stops at the first size that fits, or at the largest. -/
theorem blockFor_spec (req rounds level : Nat) :
    ∃ found, blockFor req rounds (4096 * 2 ^ level) level = (4096 * 2 ^ found, found) ∧
      found ≤ level + rounds := by
  induction rounds generalizing level with
  | zero => exact ⟨level, rfl, le_rfl⟩
  | succ rounds ih =>
    unfold blockFor
    split_ifs
    · obtain ⟨found, heq, hle⟩ := ih (level + 1)
      refine ⟨found, ?_, by omega⟩
      rw [← heq, pow_succ, Nat.mul_assoc]
    · exact ⟨level, rfl, Nat.le_add_right _ _⟩

theorem blockFor_zero (req : Nat) :
    ∃ target ≤ 15, blockFor req maxOrder 4096 0 = (4096 * 2 ^ target, target) := by
  obtain ⟨target, heq, hle⟩ := blockFor_spec req maxOrder 0
  exact ⟨target, by simpa [maxOrder] using hle, heq⟩

/-- `kfree` finds the level of every block size. -/
theorem levelOf_spec {level : Nat} (hlevel : level ≤ 15) (rounds : Nat) {k : Nat}
    (hk : k ≤ level) (hrounds : level < k + rounds) :
    levelOf (4096 * 2 ^ level) rounds (4096 * 2 ^ k) k = some level := by
  induction rounds generalizing k with
  | zero => omega
  | succ rounds ih =>
    unfold levelOf
    obtain rfl | hlt := hk.eq_or_lt
    · rw [if_neg (lt_irrefl _)]
    · have hpow : 2 ^ k < 2 ^ level := Nat.pow_lt_pow_right (by decide) hlt
      have hmax : 2 ^ k < 2 ^ 15 := hpow.trans_le (Nat.pow_le_pow_right (by decide) hlevel)
      have hwrap : wrap32 (4096 * 2 ^ k * 2) = 4096 * 2 ^ (k + 1) := by
        rw [wrap32, Nat.mod_eq_of_lt (by omega), pow_succ, Nat.mul_assoc]
      rw [if_pos (by omega), hwrap]
      exact ih hlt (by omega)

theorem getDepth_eq {m k : Nat} (h : m / 2 ^ k = 1) : getDepth m = k := by
  obtain ⟨hlow, hhigh⟩ := Below.bounds h
  have hpos : 0 < 2 ^ k := Nat.two_pow_pos k
  rw [getDepth, Nat.log2_eq_iff (by omega), pow_succ]
  omega

theorem div_getDepth {m : Nat} (hm : 1 ≤ m) : m / 2 ^ getDepth m = 1 := by
  obtain ⟨hlow, hhigh⟩ := (Nat.log2_eq_iff (show m ≠ 0 by omega)).mp rfl
  rw [pow_succ] at hhigh
  unfold getDepth
  exact Nat.div_eq_of_lt_le (by omega) (by omega)

/-- The nodes of the array are the nodes below the root. -/
theorem below_root_iff {m : Nat} : Below 15 1 m ↔ 1 ≤ m ∧ m < treeSize := by
  constructor
  · rintro ⟨k, hk, hm⟩
    obtain ⟨hlow, hhigh⟩ := Below.bounds hm
    have hpos : 0 < 2 ^ k := Nat.two_pow_pos k
    have hpow : 2 ^ k ≤ 2 ^ 15 := Nat.pow_le_pow_right (by decide) hk
    unfold treeSize
    omega
  · rintro ⟨hm, hlt⟩
    have hroot := div_getDepth hm
    obtain ⟨hlow, -⟩ := Below.bounds hroot
    refine ⟨getDepth m, ?_, hroot⟩
    by_contra hdepth
    have hpow : 2 ^ 16 ≤ 2 ^ getDepth m := Nat.pow_le_pow_right (by decide) (by omega)
    unfold treeSize at hlt
    omega

/-- The node of the taken block, in the whole array. -/
def blockNode (start level : Nat) : Nat := 2 ^ (maxOrder - level) + start / 2 ^ level

section Calls

variable {s : HeapState} {t : BuddyTree 15} {start level : Nat}

theorem getDepth_blockNode (h : t.HasBlock start level) :
    getDepth (blockNode start level) = maxOrder - level := by
  have hlt : start / 2 ^ level < 2 ^ (maxOrder - level) := by
    rw [Nat.div_lt_iff_lt_mul (Nat.two_pow_pos level), ← pow_add, maxOrder,
      Nat.sub_add_cancel h.level_le]
    exact h.lt
  refine getDepth_eq ?_
  rw [blockNode, Nat.add_div_left _ (Nat.two_pow_pos _), Nat.div_eq_of_lt hlt]

/-- The first byte of a block. -/
def blockAddr (start : Nat) : Nat := kernelHeapVirt + 4096 * start

theorem blockAddr_eq (h : t.HasBlock start level) :
    kernelHeapVirt + start / 2 ^ level * (4096 * 2 ^ level) = blockAddr start := by
  have hdvd : start / 2 ^ level * 2 ^ level = start := Nat.div_mul_cancel h.aligned.1
  have hmul : start / 2 ^ level * (4096 * 2 ^ level) = 4096 * (start / 2 ^ level * 2 ^ level) := by
    ring
  rw [blockAddr, hmul, hdvd]

/-- `kmalloc` fails and changes nothing, or takes a block of the buddy tree and
writes its header. -/
theorem kmalloc_spec (h : Rep s.tree t 1) (size : Nat) :
    kmalloc s size = (s, 0) ∨
      ∃ tree' t' start target, target ≤ 15 ∧ t.allocate target = some (t', start) ∧
        (blockFor (size + blockHeaderSize) maxOrder 4096 0).1 = 4096 * 2 ^ target ∧
        size + blockHeaderSize ≤ 4096 * 2 ^ target ∧
        Rep tree' t' 1 ∧ (∀ m, ¬Below 15 1 m → tree' m = s.tree m) ∧
        kmalloc s size =
          (((HeapState.mk tree' s.mem (wrap32 (s.totalAllocs + 1)) s.totalFrees).store
            (blockAddr start) (4096 * 2 ^ target)).store (blockAddr start + 4) headerMagic,
            blockAddr start + blockHeaderSize) := by
  unfold kmalloc
  by_cases hsize : size = 0 ∨ kernelHeapSize < size
  · exact Or.inl (if_pos hsize)
  rw [if_neg hsize]
  obtain ⟨target, htarget, hfor⟩ := blockFor_zero (size + blockHeaderSize)
  dsimp only
  rw [hfor]
  dsimp only
  by_cases hsmall : 4096 * 2 ^ target < size + blockHeaderSize
  · exact Or.inl (if_pos hsmall)
  rw [if_neg hsmall]
  have hfind := findFree_spec h htarget le_rfl
  cases halloc : t.allocate target with
  | none =>
    rw [halloc] at hfind
    left
    rw [maxOrder, hfind]
  | some res =>
    obtain ⟨t', start⟩ := res
    rw [halloc] at hfind
    obtain ⟨found, depth, hfound, hdepth, hroot, hcurr, hrep, hframe⟩ := hfind
    have hblock : t'.HasBlock start target :=
      ((BuddyTree.hasBlock_allocate htarget halloc).1 _ _).mpr (Or.inr ⟨rfl, rfl⟩)
    have hnode : 1 * 2 ^ (15 - target) + start / 2 ^ target = blockNode start target := by
      rw [Nat.one_mul, blockNode, maxOrder]
    rw [hnode] at hcurr hrep hframe
    refine Or.inr ⟨_, t', start, target, htarget, halloc, rfl, by omega, hrep, hframe, ?_⟩
    rw [maxOrder, hfound]
    dsimp only
    rw [getDepth_eq hroot, hcurr, getDepth_blockNode hblock, blockNode, maxOrder,
      Nat.add_sub_cancel_left, blockAddr_eq hblock]

theorem coalesce_root (rounds : Nat) (tree : HeapTree) : coalesce rounds tree 1 = tree := by
  cases rounds with
  | zero => rfl
  | succ rounds => simp [coalesce]

/-- `kfree` of a block whose header is intact releases the block. -/
theorem kfree_spec (h : Rep s.tree t 1) (hblock : t.HasBlock start level)
    (hsize : s.mem (blockAddr start) = 4096 * 2 ^ level)
    (hmagic : s.mem (blockAddr start + 4) = headerMagic) :
    ∃ tree', Rep tree' (t.release start) 1 ∧ (∀ m, ¬Below 15 1 m → tree' m = s.tree m) ∧
      kfree s (blockAddr start + blockHeaderSize) = some
        { s.store (blockAddr start + 4) 0 with
          tree := tree', totalFrees := wrap32 (s.totalFrees + 1) } := by
  have hlt := hblock.lt
  have hlevel := hblock.level_le
  have hpos : 0 < 2 ^ level := Nat.two_pow_pos level
  obtain ⟨tree', hframe, hrep, hfree, hne⟩ := coalesce_spec h le_rfl hblock level
  rw [Nat.one_mul, Nat.sub_add_cancel hlevel] at hfree hne
  have hco : coalesce maxOrder (Function.update s.tree (blockNode start level) .free)
      (blockNode start level) = tree' := by
    by_cases hroot : t.release start = .free
    · exact (hfree hroot).trans (coalesce_root _ _)
    · exact hne hroot
  refine ⟨tree', hrep, hframe, ?_⟩
  have hfind : levelOf (4096 * 2 ^ level) 33 4096 0 = some level :=
    levelOf_spec hlevel 33 (Nat.zero_le level) (by omega)
  have haddr : wrap32 (blockAddr start + blockHeaderSize + (4294967296 - blockHeaderSize)) =
      blockAddr start := by
    unfold wrap32 blockAddr kernelHeapVirt blockHeaderSize
    omega
  have hin : ¬(blockAddr start < kernelHeapVirt ∨ kernelHeapEnd ≤ blockAddr start) := by
    unfold blockAddr kernelHeapEnd kernelHeapVirt kernelHeapSize
    omega
  have hoffset : (blockAddr start - kernelHeapVirt) / (4096 * 2 ^ level) = start / 2 ^ level := by
    rw [blockAddr, Nat.add_sub_cancel_left, Nat.mul_div_mul_left _ _ (by decide)]
  have hnode : blockNode start level < treeSize := by
    have hbelow := Rep.below_blockNode hblock 1
    rw [Nat.one_mul] at hbelow
    exact (below_root_iff.mp hbelow).2
  unfold kfree
  rw [if_neg (by unfold blockAddr kernelHeapVirt blockHeaderSize; omega), haddr]
  dsimp only
  rw [if_neg hin, if_neg (not_not.mpr hmagic), hsize, hfind]
  simp only [Option.bind_eq_bind, Option.bind_some, hoffset]
  rw [← blockNode, if_neg (by unfold maxOrder; omega)]
  simp only [HeapState.store]
  rw [hco]

end Calls

/-- A live block is the taken block of `2 ^ level` pages from page `start` on. -/
structure LiveBlock.Occupies (b : LiveBlock) (start level : Nat) : Prop where
  ptr : b.ptr = blockAddr start + blockHeaderSize
  size : b.blockSize = 4096 * 2 ^ level
  fits : b.size + blockHeaderSize ≤ b.blockSize

/-- The header of a block is as `kmalloc` wrote it. -/
structure HasHeader (mem : Nat → Nat) (start level : Nat) : Prop where
  size : mem (blockAddr start) = 4096 * 2 ^ level
  magic : mem (blockAddr start + 4) = headerMagic

/-- The heap represents a buddy tree whose taken blocks are the live blocks. -/
structure HeapRep (w : HeapWorld) (t : BuddyTree 15) : Prop where
  rep : Rep w.heap.tree t 1
  canonical : t.Canonical
  rest : ∀ m, ¬Below 15 1 m → w.heap.tree m = .unused
  live : ∀ b ∈ w.live, ∃ start level, t.HasBlock start level ∧ b.Occupies start level ∧
    HasHeader w.heap.mem start level
  taken : ∀ start level, t.HasBlock start level → ∃ b ∈ w.live, b.Occupies start level
  distinct : w.live.Pairwise fun b c => b.ptr ≠ c.ptr

theorem LiveBlock.Occupies.start_eq {b : LiveBlock} {start level : Nat}
    (h : b.Occupies start level) : b.start = blockAddr start := by
  rw [LiveBlock.start, h.ptr, Nat.add_sub_cancel]

theorem blockAddr_inj {start start' : Nat} (h : blockAddr start = blockAddr start') :
    start = start' := by
  unfold blockAddr at h
  omega

theorem HasHeader.congr {mem mem' : Nat → Nat} {start level : Nat} (h : HasHeader mem start level)
    (hsame : ∀ a, a = blockAddr start ∨ a = blockAddr start + 4 → mem' a = mem a) :
    HasHeader mem' start level :=
  ⟨(hsame _ (Or.inl rfl)).trans h.size, (hsame _ (Or.inr rfl)).trans h.magic⟩

namespace HeapRep

variable {w w' : HeapWorld} {t : BuddyTree 15}

theorem init (mem : Nat → Nat) : HeapRep (HeapWorld.init mem) .free where
  rep := by
    refine ⟨by simp [HeapWorld.init, heapInit], fun m _ hne => ?_⟩
    simp [HeapWorld.init, heapInit, hne]
  canonical := trivial
  rest m hm := by
    simp [HeapWorld.init, heapInit, Below.ne_of_not hm]
  live b hb := by cases hb
  taken _ _ h := h.elim
  distinct := List.Pairwise.nil

theorem kmalloc (h : HeapRep w t) {size : Nat}
    (hs : HeapOp.step w (.kmalloc size) = some w') : ∃ t', HeapRep w' t' := by
  obtain hfail | ⟨tree', t', start, target, htarget, halloc, hsize, hfits, hrep, hframe, heq⟩ :=
    kmalloc_spec h.rep size
  · simp only [HeapOp.step, hfail, if_true] at hs
    cases hs
    exact ⟨t, h⟩
  have hptr : blockAddr start + blockHeaderSize ≠ 0 := by
    unfold blockAddr kernelHeapVirt
    omega
  simp only [HeapOp.step, heq, if_neg hptr] at hs
  cases hs
  obtain ⟨hblocks, hnew⟩ := BuddyTree.hasBlock_allocate htarget halloc
  have hocc : LiveBlock.Occupies ⟨blockAddr start + blockHeaderSize, size⟩ start target :=
    ⟨rfl, hsize, hfits.trans hsize.ge⟩
  -- the new header is not one of a block that was taken before
  have hother : ∀ s e, t.HasBlock s e → s ≠ start := by
    rintro s e he rfl
    exact hnew e he
  refine ⟨t', hrep, (BuddyTree.canonical_allocate h.canonical halloc).1,
    fun m hm => (hframe m hm).trans (h.rest m hm), fun b hb => ?_, fun s e he => ?_, ?_⟩
  · obtain rfl | hb := List.mem_cons.mp hb
    · refine ⟨start, target, (hblocks _ _).mpr (Or.inr ⟨rfl, rfl⟩), hocc, ?_, ?_⟩
      · simp [HeapState.store]
      · simp [HeapState.store]
    · obtain ⟨s, e, hblock, hb, hheader⟩ := h.live b hb
      refine ⟨s, e, (hblocks _ _).mpr (Or.inl hblock), hb, hheader.congr fun a ha => ?_⟩
      have hne := hother s e hblock
      simp only [HeapState.store]
      rw [Function.update_of_ne, Function.update_of_ne]
      · unfold blockAddr at ha ⊢
        omega
      · unfold blockAddr at ha ⊢
        omega
  · obtain he | ⟨rfl, rfl⟩ := (hblocks s e).mp he
    · obtain ⟨b, hb, hocc'⟩ := h.taken s e he
      exact ⟨b, List.mem_cons_of_mem _ hb, hocc'⟩
    · exact ⟨_, List.mem_cons_self, hocc⟩
  · refine List.Pairwise.cons (fun b hb heq => ?_) h.distinct
    obtain ⟨s, e, hblock, hb, -⟩ := h.live b hb
    rw [hb.ptr] at heq
    exact hother s e hblock (blockAddr_inj (Nat.add_right_cancel heq)).symm

theorem kfree (h : HeapRep w t) {ptr : Nat} (hlive : ∃ b ∈ w.live, b.ptr = ptr)
    (hs : HeapOp.step w (.kfree ptr) = some w') : ∃ t', HeapRep w' t' := by
  obtain ⟨b, hb, rfl⟩ := hlive
  obtain ⟨start, level, hblock, hocc, hheader⟩ := h.live b hb
  obtain ⟨tree', hrep, hframe, heq⟩ := kfree_spec h.rep hblock hheader.size hheader.magic
  simp only [HeapOp.step, hocc.ptr, heq, Option.map_some] at hs
  cases hs
  have hblocks := BuddyTree.hasBlock_release hblock
  refine ⟨t.release start, hrep, BuddyTree.canonical_release h.canonical start,
    fun m hm => (hframe m hm).trans (h.rest m hm), fun c hc => ?_, fun s e he => ?_, ?_⟩
  · obtain ⟨hc, hne⟩ := List.mem_filter.mp hc
    obtain ⟨s, e, hblock', hocc', hheader'⟩ := h.live c hc
    have hne : s ≠ start := by
      rintro rfl
      simp [hocc'.ptr] at hne
    refine ⟨s, e, (hblocks s e).mpr ⟨hblock', hne⟩, hocc', hheader'.congr fun a ha => ?_⟩
    refine Function.update_of_ne ?_ _ _
    unfold blockAddr at ha ⊢
    omega
  · obtain ⟨he, hne⟩ := (hblocks s e).mp he
    obtain ⟨c, hc, hocc'⟩ := h.taken s e he
    refine ⟨c, List.mem_filter.mpr ⟨hc, decide_eq_true fun heq => hne ?_⟩, hocc'⟩
    rw [hocc'.ptr] at heq
    exact blockAddr_inj (Nat.add_right_cancel heq)
  · exact h.distinct.filter _

/-- A caller that writes inside its block writes no header. -/
theorem write (h : HeapRep w t) {addr value : Nat} (hpos : HeapOp.Possible w (.write addr value))
    (hs : HeapOp.step w (.write addr value) = some w') : ∃ t', HeapRep w' t' := by
  obtain ⟨b, hb, -, hlow, hhigh⟩ := hpos
  obtain ⟨start, level, hblock, hocc, -⟩ := h.live b hb
  cases hs
  refine ⟨t, h.rep, h.canonical, h.rest, fun c hc => ?_, h.taken, h.distinct⟩
  obtain ⟨s, e, hblock', hocc', hheader⟩ := h.live c hc
  refine ⟨s, e, hblock', hocc', hheader.congr fun a ha => Function.update_of_ne ?_ _ _⟩
  rw [hocc.ptr] at hlow
  rw [hocc.start_eq, hocc.size] at hhigh
  have hpos : 0 < 2 ^ e := Nat.two_pow_pos e
  have hdisj := hblock.disjoint hblock'
  unfold blockAddr blockHeaderSize at *
  omega

theorem step (h : HeapRep w t) {op : HeapOp} (hpos : HeapOp.Possible w op)
    (hs : HeapOp.step w op = some w') : ∃ t', HeapRep w' t' := by
  cases op with
  | kmalloc size => exact h.kmalloc hs
  | kfree ptr => exact h.kfree hpos hs
  | write addr value => exact h.write hpos hs

theorem reach {mem : Nat → Nat}
    (h : Reach HeapOp.step HeapOp.Possible (HeapWorld.init mem) w) : ∃ t, HeapRep w t :=
  h.invariant (P := fun w => ∃ t, HeapRep w t) ⟨.free, init mem⟩
    fun _ _ _ ⟨_, h⟩ hpos hs => h.step hpos hs

end HeapRep

/-- The size of the block of a node. -/
def nodeSize (m : Nat) : Nat := 4096 * 2 ^ (maxOrder - getDepth m)

/-- The first address of the block of a node. -/
def nodeStart (m : Nat) : Nat := kernelHeapVirt + (m - 2 ^ getDepth m) * nodeSize m

/-- The array is a tree whose blocks tile the heap, and whose allocated blocks are the
live ones. -/
structure HeapWellFormed (w : HeapWorld) : Prop where
  /-- A split node above level 0 has two children in use, and none at level 0 is split. -/
  split : ∀ m, 1 ≤ m → m < treeSize → w.heap.tree m = .split →
    m * 2 + 1 < treeSize ∧ w.heap.tree (m * 2) ≠ .unused ∧ w.heap.tree (m * 2 + 1) ≠ .unused
  /-- Below a block everything is unused. -/
  below : ∀ m m' k, 1 ≤ m → m' < treeSize → 0 < k → m' / 2 ^ k = m → IsBlock w.heap.tree m →
    w.heap.tree m' = .unused
  /-- Every block lies inside the heap. -/
  inside : ∀ m, 1 ≤ m → m < treeSize → IsBlock w.heap.tree m →
    kernelHeapVirt ≤ nodeStart m ∧ nodeStart m + nodeSize m ≤ kernelHeapEnd
  /-- Every address of the heap is in one block. -/
  tiled : ∀ addr, kernelHeapVirt ≤ addr → addr < kernelHeapEnd →
    ∃! m, (1 ≤ m ∧ m < treeSize ∧ IsBlock w.heap.tree m) ∧
      nodeStart m ≤ addr ∧ addr < nodeStart m + nodeSize m
  /-- Every allocated node is the node of one live block. -/
  allocated : ∀ m, 1 ≤ m → m < treeSize → w.heap.tree m = .alloc →
    ∃! b, b ∈ w.live ∧ b.start = nodeStart m ∧ b.blockSize = nodeSize m
  /-- Every live block is the block of one allocated node. -/
  live : ∀ b ∈ w.live, ∃! m, (1 ≤ m ∧ m < treeSize ∧ w.heap.tree m = .alloc) ∧
    b.start = nodeStart m ∧ b.blockSize = nodeSize m
  /-- The live blocks are pairwise disjoint. -/
  disjoint : w.live.Pairwise fun b c =>
    b.start + b.blockSize ≤ c.start ∨ c.start + c.blockSize ≤ b.start
  /-- A live block has a power of two of pages, is aligned to its size, and holds the
  header and the bytes asked for. -/
  aligned : ∀ b ∈ w.live, (∃ level, b.blockSize = 4096 * 2 ^ level) ∧
    b.blockSize ∣ b.start - kernelHeapVirt ∧ b.size + blockHeaderSize ≤ b.blockSize ∧
    b.ptr = b.start + blockHeaderSize

/-- The node of page `x`, `k` rows above the last row. -/
def pageNode (x k : Nat) : Nat := (1 * 2 ^ 15 + x) / 2 ^ k

section Geometry

variable {x k m : Nat}

theorem pageNode_eq (hk : k ≤ 15) : pageNode x k = 2 ^ (15 - k) + x / 2 ^ k := by
  have hpow : 2 ^ 15 = 2 ^ k * 2 ^ (15 - k) := by
    rw [← pow_add, Nat.add_sub_cancel' hk]
  rw [pageNode, Nat.one_mul, hpow, Nat.mul_add_div (Nat.two_pow_pos k)]

theorem getDepth_pageNode (hk : k ≤ 15) (hx : x < 2 ^ 15) : getDepth (pageNode x k) = 15 - k := by
  refine getDepth_eq ?_
  rw [pageNode, Nat.div_div_eq_div_mul, ← pow_add, Nat.add_sub_cancel' hk, Rep.ancestor_top hx]

theorem pageNode_inside (hk : k ≤ 15) (hx : x < 2 ^ 15) :
    1 ≤ pageNode x k ∧ pageNode x k < treeSize := by
  refine below_root_iff.mp ⟨15 - k, Nat.sub_le _ _, ?_⟩
  rw [pageNode, Nat.div_div_eq_div_mul, ← pow_add, Nat.add_sub_cancel' hk, Rep.ancestor_top hx]

theorem nodeSize_pageNode (hk : k ≤ 15) (hx : x < 2 ^ 15) :
    nodeSize (pageNode x k) = 4096 * 2 ^ k := by
  rw [nodeSize, getDepth_pageNode hk hx, maxOrder, Nat.sub_sub_self hk]

theorem nodeStart_pageNode (hk : k ≤ 15) (hx : x < 2 ^ 15) :
    nodeStart (pageNode x k) = kernelHeapVirt + 4096 * (x / 2 ^ k * 2 ^ k) := by
  rw [nodeStart, nodeSize_pageNode hk hx, getDepth_pageNode hk hx, pageNode_eq hk,
    Nat.add_sub_cancel_left]
  ring

/-- Every node is the node of some page. -/
theorem exists_pageNode (hm : 1 ≤ m) (hlt : m < treeSize) :
    ∃ x k, x < 2 ^ 15 ∧ k ≤ 15 ∧ 2 ^ k ∣ x ∧ m = pageNode x k := by
  obtain ⟨d, hd, hroot⟩ := below_root_iff.mpr ⟨hm, hlt⟩
  obtain ⟨hlow, hhigh⟩ := Below.bounds hroot
  have hk : 15 - d ≤ 15 := Nat.sub_le _ _
  have hpow : 2 ^ 15 = 2 ^ d * 2 ^ (15 - d) := by
    rw [← pow_add, Nat.add_sub_cancel' hd]
  refine ⟨(m - 2 ^ d) * 2 ^ (15 - d), 15 - d, ?_, hk, Nat.dvd_mul_left _ _, ?_⟩
  · rw [hpow]
    exact Nat.mul_lt_mul_of_pos_right (by omega) (Nat.two_pow_pos _)
  · rw [pageNode_eq hk, Nat.mul_div_cancel _ (Nat.two_pow_pos _), Nat.sub_sub_self hd]
    omega

/-- An address is in the block of a node when the node is above its page. -/
theorem mem_node_iff {addr : Nat} (hlow : kernelHeapVirt ≤ addr) (hhigh : addr < kernelHeapEnd)
    (hm : 1 ≤ m) (hlt : m < treeSize) :
    nodeStart m ≤ addr ∧ addr < nodeStart m + nodeSize m ↔
      ∃ k ≤ 15, m = pageNode ((addr - kernelHeapVirt) / 4096) k := by
  have hpage : (addr - kernelHeapVirt) / 4096 < 2 ^ 15 := by
    unfold kernelHeapEnd kernelHeapSize at hhigh
    omega
  constructor
  · rintro ⟨hstart, hend⟩
    obtain ⟨x, k, hx, hk, hdvd, rfl⟩ := exists_pageNode hm hlt
    rw [nodeStart_pageNode hk hx, Nat.div_mul_cancel hdvd] at hstart hend
    rw [nodeSize_pageNode hk hx] at hend
    refine ⟨k, hk, ?_⟩
    rw [pageNode_eq hk, pageNode_eq hk]
    congr 1
    obtain ⟨q, rfl⟩ := hdvd
    rw [Nat.mul_div_cancel_left _ (Nat.two_pow_pos k)]
    refine (Nat.div_eq_of_lt_le ?_ ?_).symm
    · rw [Nat.mul_comm]
      omega
    · rw [Nat.succ_mul, Nat.mul_comm]
      omega
  · rintro ⟨k, hk, rfl⟩
    rw [nodeStart_pageNode hk hpage, nodeSize_pageNode hk hpage]
    have hpos : 0 < 2 ^ k := Nat.two_pow_pos k
    have hdiv := Nat.div_add_mod ((addr - kernelHeapVirt) / 4096) (2 ^ k)
    have hmod := Nat.mod_lt ((addr - kernelHeapVirt) / 4096) hpos
    rw [Nat.mul_comm] at hdiv
    omega

theorem pageNode_blockNode {t : BuddyTree 15} {start level : Nat} (h : t.HasBlock start level) :
    pageNode start level = 1 * 2 ^ (15 - level) + start / 2 ^ level := by
  rw [pageNode_eq h.level_le, Nat.one_mul]

end Geometry

namespace HeapRep

variable {w : HeapWorld} {t : BuddyTree 15}

/-- The allocated nodes are the nodes of the taken blocks. -/
theorem alloc_iff (h : HeapRep w t) {m : Nat} (hm : 1 ≤ m) (hlt : m < treeSize) :
    w.heap.tree m = .alloc ↔ ∃ start level, t.HasBlock start level ∧ m = pageNode start level := by
  rw [h.rep.alloc_iff le_rfl (below_root_iff.mpr ⟨hm, hlt⟩)]
  constructor
  · rintro ⟨start, level, hblock, rfl⟩
    exact ⟨start, level, hblock, (pageNode_blockNode hblock).symm⟩
  · rintro ⟨start, level, hblock, rfl⟩
    exact ⟨start, level, hblock, pageNode_blockNode hblock⟩

/-- The place of a live block is the place of its node. -/
theorem occupies_iff {b : LiveBlock} {start level : Nat} (hblock : t.HasBlock start level) :
    b.start = nodeStart (pageNode start level) ∧ b.blockSize = nodeSize (pageNode start level) ↔
      b.start = blockAddr start ∧ b.blockSize = 4096 * 2 ^ level := by
  rw [nodeStart_pageNode hblock.level_le hblock.lt, nodeSize_pageNode hblock.level_le hblock.lt,
    Nat.div_mul_cancel hblock.aligned.1, blockAddr]

/-- Two live blocks with one start are the same. -/
theorem live_inj (h : HeapRep w t) {b c : LiveBlock} (hb : b ∈ w.live) (hc : c ∈ w.live)
    (hstart : b.start = c.start) : b = c := by
  obtain ⟨s, e, -, hocc, -⟩ := h.live b hb
  obtain ⟨s', e', -, hocc', -⟩ := h.live c hc
  have hptr : b.ptr = c.ptr := by
    rw [hocc.ptr, hocc'.ptr, ← hocc.start_eq, ← hocc'.start_eq, hstart]
  exact List.inj_on_of_nodup_map (List.pairwise_map.mpr h.distinct) hb hc hptr

theorem wellFormed (h : HeapRep w t) : HeapWellFormed w where
  split m hm hlt hsplit := by
    have hbelow := below_root_iff.mpr ⟨hm, hlt⟩
    refine ⟨?_, h.rep.children_used hbelow hsplit⟩
    by_contra hbottom
    have hroot : m / 2 ^ 15 = 1 := by
      unfold treeSize at hlt hbottom
      omega
    exact h.rep.bottom_ne_split hroot hsplit
  below m m' k hm hlt hk hdiv hblock := by
    have hle : m ≤ m' := (lt_of_strictly_below hm hk hdiv).le
    exact h.rep.below_block le_rfl (below_root_iff.mpr ⟨hm, hle.trans_lt hlt⟩) hblock hk hdiv
      (below_root_iff.mpr ⟨hm.trans hle, hlt⟩)
  inside m hm hlt _ := by
    obtain ⟨x, k, hx, hk, ⟨q, rfl⟩, rfl⟩ := exists_pageNode hm hlt
    rw [nodeStart_pageNode hk hx, nodeSize_pageNode hk hx,
      Nat.mul_div_cancel_left _ (Nat.two_pow_pos k)]
    have hpow : 2 ^ 15 = 2 ^ k * 2 ^ (15 - k) := by
      rw [← pow_add, Nat.add_sub_cancel' hk]
    have hq : q < 2 ^ (15 - k) := by
      rw [hpow] at hx
      exact Nat.lt_of_mul_lt_mul_left hx
    have hend : 2 ^ k * (q + 1) ≤ 2 ^ 15 := by
      rw [hpow]
      exact Nat.mul_le_mul_left _ hq
    rw [Nat.mul_comm q]
    rw [Nat.mul_add] at hend
    unfold kernelHeapEnd kernelHeapSize
    omega
  tiled addr hlow hhigh := by
    have hpage : (addr - kernelHeapVirt) / 4096 < 2 ^ 15 := by
      unfold kernelHeapEnd kernelHeapSize at hhigh
      omega
    obtain ⟨k, hk, hblock, honly⟩ := h.rep.block_of_page le_rfl hpage
    obtain ⟨hone, hlt⟩ := pageNode_inside hk hpage
    refine ⟨pageNode ((addr - kernelHeapVirt) / 4096) k, ⟨⟨hone, hlt, hblock⟩,
      (mem_node_iff hlow hhigh hone hlt).mpr ⟨k, hk, rfl⟩⟩, ?_⟩
    rintro m ⟨⟨hm, hm', hblock'⟩, hmem⟩
    obtain ⟨k', hk', rfl⟩ := (mem_node_iff hlow hhigh hm hm').mp hmem
    rw [honly k' hk' hblock']
  allocated m hm hlt halloc := by
    obtain ⟨start, level, hblock, rfl⟩ := (h.alloc_iff hm hlt).mp halloc
    obtain ⟨b, hb, hocc⟩ := h.taken start level hblock
    simp only [occupies_iff hblock]
    refine ⟨b, ⟨hb, hocc.start_eq, hocc.size⟩, ?_⟩
    rintro c ⟨hc, hstart, -⟩
    exact h.live_inj hc hb (hstart.trans hocc.start_eq.symm)
  live b hb := by
    obtain ⟨start, level, hblock, hocc, -⟩ := h.live b hb
    obtain ⟨hone, hlt⟩ := pageNode_inside hblock.level_le hblock.lt
    refine ⟨pageNode start level, ⟨⟨hone, hlt, (h.alloc_iff hone hlt).mpr ⟨_, _, hblock, rfl⟩⟩,
      (occupies_iff hblock).mpr ⟨hocc.start_eq, hocc.size⟩⟩, ?_⟩
    rintro m ⟨⟨hm, hm', halloc⟩, hplace⟩
    obtain ⟨s, e, hblock', rfl⟩ := (h.alloc_iff hm hm').mp halloc
    obtain ⟨hstart, hsize⟩ := (occupies_iff hblock').mp hplace
    obtain rfl := blockAddr_inj (hocc.start_eq.symm.trans hstart)
    have hdisj := hblock.disjoint hblock'
    have hpos : 0 < 2 ^ level := Nat.two_pow_pos level
    have hpos' : 0 < 2 ^ e := Nat.two_pow_pos e
    obtain rfl : level = e := by omega
    rfl
  disjoint := by
    refine (List.Pairwise.and_mem.mp h.distinct).imp ?_
    rintro b c ⟨hb, hc, hne⟩
    obtain ⟨s, e, hblock, hocc, -⟩ := h.live b hb
    obtain ⟨s', e', hblock', hocc', -⟩ := h.live c hc
    rw [hocc.ptr, hocc'.ptr] at hne
    rw [hocc.start_eq, hocc'.start_eq, hocc.size, hocc'.size]
    have hdisj := hblock.disjoint hblock'
    unfold blockAddr at *
    omega
  aligned b hb := by
    obtain ⟨start, level, hblock, hocc, -⟩ := h.live b hb
    refine ⟨⟨level, hocc.size⟩, ?_, hocc.fits, ?_⟩
    · rw [hocc.start_eq, hocc.size, blockAddr, Nat.add_sub_cancel_left]
      exact Nat.mul_dvd_mul_left _ hblock.aligned.1
    · rw [hocc.start_eq, hocc.ptr]

end HeapRep

/-- The array is well formed after every run. -/
theorem heap_well_formed (mem : Nat → Nat) (w : HeapWorld)
    (h : Reach HeapOp.step HeapOp.Possible (HeapWorld.init mem) w) : HeapWellFormed w := by
  obtain ⟨t, hrep⟩ := HeapRep.reach h
  exact hrep.wellFormed

/-- A heap with one block of 100 bytes. -/
theorem heap_well_formed_sample :
    HeapWellFormed ⟨(kmalloc (heapInit fun _ => 0) 100).1,
      if (kmalloc (heapInit fun _ => 0) 100).2 = 0 then []
      else [⟨(kmalloc (heapInit fun _ => 0) 100).2, 100⟩]⟩ :=
  heap_well_formed (fun _ => 0) _ (.next (i := .kmalloc 100) .start trivial rfl)

namespace HeapRep

variable {w w' : HeapWorld} {t t' : BuddyTree 15}

/-- The taken blocks are the places of the live blocks. -/
theorem hasBlock_iff (h : HeapRep w t) {start level : Nat} :
    t.HasBlock start level ↔ ∃ b ∈ w.live, b.ptr = blockAddr start + blockHeaderSize ∧
      b.blockSize = 4096 * 2 ^ level := by
  constructor
  · intro hblock
    obtain ⟨b, hb, hocc⟩ := h.taken start level hblock
    exact ⟨b, hb, hocc.ptr, hocc.size⟩
  · rintro ⟨b, hb, hptr, hsize⟩
    obtain ⟨s, e, hblock, hocc, -⟩ := h.live b hb
    obtain rfl := blockAddr_inj (Nat.add_right_cancel (hocc.ptr.symm.trans hptr))
    have hpow : 2 ^ e = 2 ^ level :=
      Nat.eq_of_mul_eq_mul_left (by decide) (hocc.size.symm.trans hsize)
    rwa [← Nat.pow_right_injective le_rfl hpow]

/-- Two arrays of one tree are equal. -/
theorem tree_eq (h : HeapRep w t) (h' : HeapRep w' t) : w.heap.tree = w'.heap.tree := by
  funext m
  by_cases hm : Below 15 1 m
  · exact h.rep.unique h'.rep hm
  · rw [h.rest m hm, h'.rest m hm]

theorem not_buddies_free (h : HeapRep w t) {m : Nat} (hm : 2 ≤ m) (hlt : m < treeSize) :
    ¬(w.heap.tree m = .free ∧ w.heap.tree (m ^^^ 1) = .free) := by
  have hparent : ¬(w.heap.tree (m / 2 * 2) = .free ∧ w.heap.tree (m / 2 * 2 + 1) = .free) :=
    h.rep.not_buddies_free h.canonical (below_root_iff.mpr (by omega)) (by omega)
  obtain heq | heq : m = m / 2 * 2 ∨ m = m / 2 * 2 + 1 := by omega
  · rw [heq, buddy_left]
    exact hparent
  · rw [heq, buddy_right, and_comm]
    exact hparent

end HeapRep

/-- The live blocks determine the array: no two buddies are both free, and without a
live block the array is the initial one. -/
theorem heap_canonical (mem mem' : Nat → Nat) (w w' : HeapWorld)
    (h : Reach HeapOp.step HeapOp.Possible (HeapWorld.init mem) w)
    (h' : Reach HeapOp.step HeapOp.Possible (HeapWorld.init mem') w') :
    ((∀ ptr size, (∃ b ∈ w.live, b.ptr = ptr ∧ b.blockSize = size) ↔
        ∃ b ∈ w'.live, b.ptr = ptr ∧ b.blockSize = size) → w.heap.tree = w'.heap.tree) ∧
      (∀ m, 2 ≤ m → m < treeSize →
        ¬(w.heap.tree m = .free ∧ w.heap.tree (m ^^^ 1) = .free)) ∧
      (w.live = [] → w.heap.tree = (heapInit mem).tree) := by
  obtain ⟨t, hrep⟩ := HeapRep.reach h
  obtain ⟨t', hrep'⟩ := HeapRep.reach h'
  refine ⟨fun hlive => ?_, fun m => hrep.not_buddies_free, fun hempty => ?_⟩
  · obtain rfl : t = t' := hrep.canonical.ext hrep'.canonical fun start level => by
      rw [hrep.hasBlock_iff, hrep'.hasBlock_iff]
      exact hlive _ _
    exact hrep.tree_eq hrep'
  · obtain rfl : t = .free := hrep.canonical.eq_free fun start level hblock => by
      obtain ⟨b, hb, -⟩ := hrep.taken start level hblock
      rw [hempty] at hb
      cases hb
    exact hrep.tree_eq (HeapRep.init mem)

/-- Freeing the only block restores the array. -/
theorem heap_canonical_sample : ∃ w : HeapWorld, w.heap.totalFrees = 1 ∧
    w.heap.tree = (heapInit fun _ => 0).tree := by
  have hrun : Reach HeapOp.step HeapOp.Possible (HeapWorld.init fun _ => 0)
      ⟨(kmalloc (heapInit fun _ => 0) 100).1, [⟨0xD0000008, 100⟩]⟩ :=
    .next (i := .kmalloc 100) .start trivial rfl
  have hlive : HeapOp.Possible ⟨(kmalloc (heapInit fun _ => 0) 100).1, [⟨0xD0000008, 100⟩]⟩
      (.kfree 0xD0000008) := ⟨_, List.mem_cons_self, rfl⟩
  have hfreed := hrun.next hlive rfl
  exact ⟨_, rfl, (heap_canonical _ (fun _ => 0) _ _ hfreed .start).2.2 rfl⟩

end EnclaveOS
