import EnclaveOS.Heap.HeapRuns
import Mathlib.Algebra.BigOperators.Intervals
import Mathlib.Algebra.Order.BigOperators.Group.Finset

/-!
# HeapAccounts - the counters of the heap and its bad frees

Callers may free `NULL`, a pointer outside the heap, or a pointer that was freed before.  What
protects the tree is the word of a header that `kfree` clears, and the bounds, which are
those of the header and not of the pointer.
-/

namespace EnclaveOS

/-- `heap_check_balance`. -/
def heapCheckBalance (s : HeapState) : Int :=
  int32 (wrap32 (s.totalAllocs + (4294967296 - s.totalFrees)))

/-- A round of the loop of `heap_print_status`: `free_bytes` and `alloc_bytes`. -/
def statusRound (tree : HeapTree) (bytes : Nat × Nat) (i : Nat) : Nat × Nat :=
  let size := 4096 * 2 ^ (maxOrder - getDepth i)
  match tree i with
  | .free => (wrap32 (bytes.1 + size), bytes.2)
  | .alloc => (bytes.1, wrap32 (bytes.2 + size))
  | _ => bytes

/-- The loop of `heap_print_status`. -/
def heapStatusBytes (tree : HeapTree) : Nat × Nat :=
  (List.range' 1 (treeSize - 1)).foldl (statusRound tree) (0, 0)

/-- The pointer of a live block. -/
def HeapWorld.IsLive (w : HeapWorld) (ptr : Nat) : Prop := ∃ b ∈ w.live, b.ptr = ptr

instance (w : HeapWorld) (ptr : Nat) : Decidable (w.IsLive ptr) :=
  inferInstanceAs (Decidable (∃ b ∈ w.live, b.ptr = ptr))

/-- The heap and the pointers that were freed. -/
structure HeapHistory where
  world : HeapWorld
  freed : List Nat

/-- The pointers that were freed after an operation. -/
def HeapHistory.freedAfter (a : HeapHistory) : HeapOp → List Nat
  | .kfree ptr => if a.world.IsLive ptr then ptr :: a.freed else a.freed
  | _ => a.freed

def HeapHistory.step (a : HeapHistory) (op : HeapOp) : Option HeapHistory :=
  (op.step a.world).map fun w => ⟨w, a.freedAfter op⟩

def HeapHistory.init (mem : Nat → Nat) : HeapHistory := ⟨HeapWorld.init mem, []⟩

/-- What callers do: a pointer is live, or was freed, or is outside of the heap, and the magic word
is not written where the header of a freed pointer was. -/
def HeapOp.Offered (a : HeapHistory) : HeapOp → Prop
  | .kmalloc _ => True
  | .kfree ptr => ptr < 4294967296 ∧
    (a.world.IsLive ptr ∨ ptr ∈ a.freed ∨ ptr < kernelHeapVirt ∨ kernelHeapEnd ≤ ptr)
  | .write addr value =>
    HeapOp.Possible a.world (.write addr value) ∧ (addr + 4 ∈ a.freed → value ≠ headerMagic)

/-- A pointer just beyond the heap has no header that looks intact. -/
def HeapOp.EndsClean (a : HeapHistory) : HeapOp → Prop
  | .kfree ptr => kernelHeapEnd ≤ ptr → ptr < kernelHeapEnd + blockHeaderSize →
    a.world.heap.mem (ptr - 4) ≠ headerMagic
  | _ => True

def HeapOp.Tolerated (a : HeapHistory) (op : HeapOp) : Prop := op.Offered a ∧ op.EndsClean a

/-- The counters agree with the number of live blocks. -/
structure Balanced (w : HeapWorld) : Prop where
  allocs : w.heap.totalAllocs = wrap32 (w.live.length + w.heap.totalFrees)
  frees : w.heap.totalFrees < 4294967296

/-- Every pointer that was freed is the pointer of a page, and has a header that is cleared unless
the pointer is live again. -/
def Stale (a : HeapHistory) : Prop :=
  ∀ ptr ∈ a.freed, (∃ start, ptr = blockAddr start + blockHeaderSize) ∧
    (¬a.world.IsLive ptr → a.world.heap.mem (ptr - 4) ≠ headerMagic)

/-- The invariant of the runs. -/
structure HeapAccounts (a : HeapHistory) : Prop where
  rep : ∃ t, HeapRep a.world t
  balanced : Balanced a.world
  stale : Stale a

/-- One block goes away when its pointer is freed. -/
theorem length_filter_ptr {live : List LiveBlock} {ptr : Nat}
    (hdistinct : live.Pairwise fun b c => b.ptr ≠ c.ptr) (h : ∃ b ∈ live, b.ptr = ptr) :
    (live.filter fun b => b.ptr ≠ ptr).length + 1 = live.length := by
  induction live with
  | nil => simp at h
  | cons c live ih =>
    obtain ⟨hc, hlive⟩ := List.pairwise_cons.mp hdistinct
    by_cases heq : c.ptr = ptr
    · have hrest : live.filter (fun b => b.ptr ≠ ptr) = live := by
        apply List.filter_eq_self.mpr
        intro b hb
        simp only [ne_eq, decide_not, Bool.not_eq_eq_eq_not, Bool.not_true, decide_eq_false_iff_not]
        exact fun hb' => hc b hb (heq.trans hb'.symm)
      rw [List.filter_cons_of_neg (by simp [heq]), hrest, List.length_cons]
    · have hrest : ∃ b ∈ live, b.ptr = ptr := by
        obtain ⟨b, hb, hptr⟩ := h
        obtain rfl | hb := List.mem_cons.mp hb
        · exact absurd hptr heq
        · exact ⟨b, hb, hptr⟩
      rw [List.filter_cons_of_pos (by simp [heq]), List.length_cons, ih hlive hrest,
        List.length_cons]

/-- `kmalloc` fails and changes nothing, or adds a block with its header. -/
theorem kmalloc_counts {w w' : HeapWorld} {t : BuddyTree 15} (h : HeapRep w t) {size : Nat}
    (hs : HeapOp.step w (.kmalloc size) = some w') :
    w' = w ∨ ∃ start, w'.live = ⟨blockAddr start + blockHeaderSize, size⟩ :: w.live ∧
      w'.heap.totalAllocs = wrap32 (w.heap.totalAllocs + 1) ∧
      w'.heap.totalFrees = w.heap.totalFrees ∧
      ∀ a, a ≠ blockAddr start → a ≠ blockAddr start + 4 → w'.heap.mem a = w.heap.mem a := by
  obtain hfail | ⟨tree', t', start, target, -, -, -, -, -, -, heq⟩ := kmalloc_spec h.rep size
  · simp only [HeapOp.step, hfail, if_true] at hs
    cases hs
    exact Or.inl rfl
  · have hptr : blockAddr start + blockHeaderSize ≠ 0 := by
      unfold blockHeaderSize
      omega
    simp only [HeapOp.step, heq, if_neg hptr] at hs
    cases hs
    refine Or.inr ⟨start, rfl, rfl, rfl, fun a hsize hmagic => ?_⟩
    simp [HeapState.store, hsize, hmagic]

/-- `kfree` of a live pointer takes its block out and clears its header. -/
theorem kfree_counts {w : HeapWorld} {t : BuddyTree 15} (h : HeapRep w t) {ptr : Nat}
    (hlive : w.IsLive ptr) : ∃ w' start, HeapOp.step w (.kfree ptr) = some w' ∧
      ptr = blockAddr start + blockHeaderSize ∧ w'.live = w.live.filter (fun b => b.ptr ≠ ptr) ∧
      w'.heap.totalAllocs = w.heap.totalAllocs ∧
      w'.heap.totalFrees = wrap32 (w.heap.totalFrees + 1) ∧
      w'.heap.mem = Function.update w.heap.mem (blockAddr start + 4) 0 := by
  obtain ⟨b, hb, rfl⟩ := hlive
  obtain ⟨start, level, hblock, hocc, hheader⟩ := h.live b hb
  obtain ⟨tree', -, -, heq⟩ := kfree_spec h.rep hblock hheader.size hheader.magic
  rw [← hocc.ptr] at heq
  refine ⟨⟨⟨tree', Function.update w.heap.mem (blockAddr start + 4) 0, w.heap.totalAllocs,
    wrap32 (w.heap.totalFrees + 1)⟩, w.live.filter fun c => c.ptr ≠ b.ptr⟩, start, ?_, hocc.ptr,
    rfl, rfl, rfl, rfl⟩
  simp only [HeapOp.step, heq, Option.map_some]
  rfl

/-- `kfree` rejects a pointer whose header is outside of the heap or does not look intact. -/
theorem kfree_rejected {s : HeapState} {ptr : Nat} (hptr : ptr < 4294967296)
    (h : ptr < kernelHeapVirt + blockHeaderSize ∨ kernelHeapEnd + blockHeaderSize ≤ ptr ∨
      s.mem (ptr - 4) ≠ headerMagic) : kfree s ptr = some s := by
  unfold kfree
  by_cases hnull : ptr = 0
  · exact if_pos hnull
  rw [if_neg hnull]
  dsimp only
  by_cases hout : wrap32 (ptr + (4294967296 - blockHeaderSize)) < kernelHeapVirt ∨
      kernelHeapEnd ≤ wrap32 (ptr + (4294967296 - blockHeaderSize))
  · exact if_pos hout
  rw [if_neg hout]
  have hmagic : s.mem (wrap32 (ptr + (4294967296 - blockHeaderSize)) + 4) ≠ headerMagic := by
    have haddr : wrap32 (ptr + (4294967296 - blockHeaderSize)) + 4 = ptr - 4 := by
      unfold wrap32 kernelHeapEnd kernelHeapVirt kernelHeapSize blockHeaderSize at *
      omega
    rw [haddr]
    unfold wrap32 kernelHeapEnd kernelHeapVirt kernelHeapSize blockHeaderSize at *
    omega
  exact if_pos hmagic

theorem HeapWorld.isLive_cons {w w' : HeapWorld} {b : LiveBlock} (h : w'.live = b :: w.live)
    (ptr : Nat) : w'.IsLive ptr ↔ b.ptr = ptr ∨ w.IsLive ptr := by
  unfold HeapWorld.IsLive
  rw [h]
  simp

theorem HeapWorld.isLive_filter {w w' : HeapWorld} {p : Nat}
    (h : w'.live = w.live.filter fun b => b.ptr ≠ p) (ptr : Nat) :
    w'.IsLive ptr ↔ w.IsLive ptr ∧ ptr ≠ p := by
  unfold HeapWorld.IsLive
  rw [h]
  simp only [List.mem_filter, ne_eq, decide_not, Bool.not_eq_eq_eq_not, Bool.not_true,
    decide_eq_false_iff_not]
  constructor
  · rintro ⟨b, ⟨hb, hne⟩, rfl⟩
    exact ⟨⟨b, hb, rfl⟩, hne⟩
  · rintro ⟨⟨b, hb, rfl⟩, hne⟩
    exact ⟨b, ⟨hb, hne⟩, rfl⟩

namespace HeapAccounts

variable {a a' : HeapHistory}

theorem init (mem : Nat → Nat) : HeapAccounts (HeapHistory.init mem) where
  rep := ⟨.free, HeapRep.init mem⟩
  balanced := ⟨by simp [HeapHistory.init, HeapWorld.init, heapInit, wrap32],
    by simp [HeapHistory.init, HeapWorld.init, heapInit]⟩
  stale ptr hptr := by cases hptr

theorem kmalloc (h : HeapAccounts a) {size : Nat} (hs : a.step (.kmalloc size) = some a') :
    HeapAccounts a' := by
  obtain ⟨w', hw, rfl⟩ := Option.map_eq_some_iff.mp hs
  obtain ⟨t, hrep⟩ := h.rep
  have hrep' := hrep.kmalloc hw
  obtain rfl | ⟨start, hlive, hallocs, hfrees, hmem⟩ := kmalloc_counts hrep hw
  · exact h
  refine ⟨hrep', ⟨?_, ?_⟩, fun ptr hptr => ?_⟩
  · have hbefore := h.balanced.allocs
    simp only [hlive, List.length_cons, hallocs, hfrees]
    unfold wrap32 at hbefore ⊢
    omega
  · rw [hfrees]
    exact h.balanced.frees
  · obtain ⟨⟨start', rfl⟩, hcleared⟩ := h.stale ptr hptr
    refine ⟨⟨start', rfl⟩, fun hdead => ?_⟩
    rw [HeapWorld.isLive_cons hlive, not_or] at hdead
    -- the new header is in another page
    have hne : start ≠ start' := fun heq => hdead.1 (by rw [heq])
    rw [hmem]
    · exact hcleared hdead.2
    · unfold blockAddr blockHeaderSize
      omega
    · unfold blockAddr blockHeaderSize
      omega

theorem kfree_live (h : HeapAccounts a) {ptr : Nat} (hptr : a.world.IsLive ptr)
    (hs : a.step (.kfree ptr) = some a') : HeapAccounts a' := by
  obtain ⟨w', hw, rfl⟩ := Option.map_eq_some_iff.mp hs
  obtain ⟨t, hrep⟩ := h.rep
  have hrep' := hrep.kfree hptr hw
  obtain ⟨w'', start, hw', rfl, hlive, hallocs, hfrees, hmem⟩ := kfree_counts hrep hptr
  obtain rfl : w' = w'' := Option.some.inj (hw.symm.trans hw')
  refine ⟨hrep', ⟨?_, ?_⟩, fun p hp => ?_⟩
  · have hbefore := h.balanced.allocs
    have hlength := length_filter_ptr hrep.distinct hptr
    simp only [hlive, hallocs, hfrees, ← hlength] at hbefore ⊢
    unfold wrap32 at hbefore ⊢
    omega
  · rw [hfrees]
    exact Nat.mod_lt _ (by decide)
  · simp only [HeapHistory.freedAfter, if_pos hptr, List.mem_cons] at hp
    dsimp only
    rw [HeapWorld.isLive_filter hlive, hmem]
    obtain rfl | hp := hp
    · refine ⟨⟨start, rfl⟩, fun _ => ?_⟩
      have haddr : blockAddr start + blockHeaderSize - 4 = blockAddr start + 4 := by
        unfold blockHeaderSize
        omega
      rw [haddr, Function.update_self]
      decide
    · obtain ⟨⟨start', rfl⟩, hcleared⟩ := h.stale p hp
      refine ⟨⟨start', rfl⟩, fun hdead => ?_⟩
      by_cases heq : start' = start
      · have haddr : blockAddr start' + blockHeaderSize - 4 = blockAddr start + 4 := by
          rw [heq]
          unfold blockHeaderSize
          omega
        rw [haddr, Function.update_self]
        decide
      · rw [Function.update_of_ne]
        · refine hcleared fun hlive' => hdead ⟨hlive', fun hsame => heq ?_⟩
          exact blockAddr_inj (Nat.add_right_cancel hsame)
        · unfold blockAddr blockHeaderSize
          omega

/-- A pointer that is not live is rejected. -/
theorem kfree_dead (h : HeapAccounts a) {ptr : Nat} (hpos : HeapOp.Tolerated a (.kfree ptr))
    (hdead : ¬a.world.IsLive ptr) : EnclaveOS.kfree a.world.heap ptr = some a.world.heap := by
  obtain ⟨⟨hlt, hwhere⟩, hends⟩ := hpos
  refine kfree_rejected hlt ?_
  obtain hlive | hfreed | hlow | hhigh := hwhere
  · exact absurd hlive hdead
  · exact Or.inr (Or.inr ((h.stale ptr hfreed).2 hdead))
  · exact Or.inl (hlow.trans_le (Nat.le_add_right _ _))
  · by_cases hend : ptr < kernelHeapEnd + blockHeaderSize
    · exact Or.inr (Or.inr (hends hhigh hend))
    · exact Or.inr (Or.inl (Nat.le_of_not_lt hend))

theorem step_dead (h : HeapAccounts a) {ptr : Nat} (hpos : HeapOp.Tolerated a (.kfree ptr))
    (hdead : ¬a.world.IsLive ptr) : a.step (.kfree ptr) = some a := by
  have hfilter : a.world.live.filter (fun b => b.ptr ≠ ptr) = a.world.live := by
    apply List.filter_eq_self.mpr
    intro b hb
    simpa using fun heq => hdead ⟨b, hb, heq⟩
  unfold HeapHistory.step HeapOp.step
  dsimp only
  rw [h.kfree_dead hpos hdead, hfilter]
  simp [HeapHistory.freedAfter, hdead]

theorem write (h : HeapAccounts a) {addr value : Nat}
    (hpos : HeapOp.Offered a (.write addr value)) (hs : a.step (.write addr value) = some a') :
    HeapAccounts a' := by
  obtain ⟨w', hw, rfl⟩ := Option.map_eq_some_iff.mp hs
  obtain ⟨t, hrep⟩ := h.rep
  have hrep' := hrep.write hpos.1 hw
  cases hw
  refine ⟨hrep', ⟨h.balanced.allocs, h.balanced.frees⟩, fun p hp => ?_⟩
  obtain ⟨⟨start, rfl⟩, hcleared⟩ := h.stale p hp
  refine ⟨⟨start, rfl⟩, fun hdead => ?_⟩
  dsimp only [HeapState.store]
  by_cases haddr : blockAddr start + blockHeaderSize - 4 = addr
  · rw [haddr, Function.update_self]
    apply hpos.2
    rw [← haddr]
    unfold blockHeaderSize at hp ⊢
    exact hp
  · rw [Function.update_of_ne haddr]
    exact hcleared hdead

theorem step (h : HeapAccounts a) {op : HeapOp} (hpos : op.Tolerated a)
    (hs : a.step op = some a') : HeapAccounts a' := by
  cases op with
  | kmalloc size => exact h.kmalloc hs
  | kfree ptr =>
    by_cases hlive : a.world.IsLive ptr
    · exact h.kfree_live hlive hs
    · rw [h.step_dead hpos hlive] at hs
      cases hs
      exact h
  | write addr value => exact h.write hpos.1 hs

theorem reach {mem : Nat → Nat}
    (h : Reach HeapHistory.step (fun a op => op.Tolerated a) (HeapHistory.init mem) a) :
    HeapAccounts a :=
  h.invariant (init mem) fun _ _ _ h hpos hs => h.step hpos hs

end HeapAccounts

/-- The bytes of the blocks of one kind. -/
def bytesOf (tree : HeapTree) (kind : HeapNode) (m : Nat) : Nat :=
  if tree m = kind then nodeSize m else 0

/-- The loop adds up the bytes of the free and of the allocated nodes. -/
theorem statusRound_foldl (tree : HeapTree) (nodes : List Nat) (bytes : Nat × Nat)
    (hfree : bytes.1 < 4294967296) (halloc : bytes.2 < 4294967296) :
    nodes.foldl (statusRound tree) bytes =
      (wrap32 (bytes.1 + (nodes.map (bytesOf tree .free)).sum),
        wrap32 (bytes.2 + (nodes.map (bytesOf tree .alloc)).sum)) := by
  induction nodes generalizing bytes with
  | nil =>
    simp only [List.foldl_nil, List.map_nil, List.sum_nil, Nat.add_zero, wrap32,
      Nat.mod_eq_of_lt hfree, Nat.mod_eq_of_lt halloc]
  | cons i nodes ih =>
    have hlt : ∀ n, wrap32 n < 4294967296 := fun n => Nat.mod_lt n (by decide)
    have hwrap : ∀ b n m, wrap32 (wrap32 (b + n) + m) = wrap32 (b + (n + m)) := by
      intro b n m
      unfold wrap32
      omega
    rw [List.foldl_cons]
    cases hi : tree i with
    | free =>
      have hround : statusRound tree bytes i = (wrap32 (bytes.1 + nodeSize i), bytes.2) := by
        simp [statusRound, hi, nodeSize]
      rw [hround, ih (wrap32 (bytes.1 + nodeSize i), bytes.2) (hlt _) halloc]
      simp [bytesOf, hi, hwrap]
    | alloc =>
      have hround : statusRound tree bytes i = (bytes.1, wrap32 (bytes.2 + nodeSize i)) := by
        simp [statusRound, hi, nodeSize]
      rw [hround, ih (bytes.1, wrap32 (bytes.2 + nodeSize i)) hfree (hlt _)]
      simp [bytesOf, hi, hwrap]
    | unused =>
      have hround : statusRound tree bytes i = bytes := by simp [statusRound, hi]
      rw [hround, ih _ hfree halloc]
      simp [bytesOf, hi]
    | split =>
      have hround : statusRound tree bytes i = bytes := by simp [statusRound, hi]
      rw [hround, ih _ hfree halloc]
      simp [bytesOf, hi]

/-- The node covers the page. -/
def Covers (m x : Nat) : Prop :=
  nodeStart m ≤ kernelHeapVirt + 4096 * x ∧ kernelHeapVirt + 4096 * x < nodeStart m + nodeSize m

instance (m x : Nat) : Decidable (Covers m x) := inferInstanceAs (Decidable (_ ∧ _))

/-- The size of a node is that of the pages that it covers. -/
theorem nodeSize_eq_sum {m : Nat} (hm : 1 ≤ m) (hlt : m < treeSize) :
    nodeSize m = ∑ x ∈ Finset.range (2 ^ 15), if Covers m x then 4096 else 0 := by
  obtain ⟨x₀, k, hx, hk, hdvd, rfl⟩ := exists_pageNode hm hlt
  have hinside : x₀ + 2 ^ k ≤ 2 ^ 15 := by
    obtain ⟨q, rfl⟩ := hdvd
    have hpow : 2 ^ 15 = 2 ^ k * 2 ^ (15 - k) := by
      rw [← pow_add, Nat.add_sub_cancel' hk]
    rw [hpow] at hx ⊢
    have hq : q < 2 ^ (15 - k) := Nat.lt_of_mul_lt_mul_left hx
    calc 2 ^ k * q + 2 ^ k = 2 ^ k * (q + 1) := by ring
      _ ≤ 2 ^ k * 2 ^ (15 - k) := Nat.mul_le_mul_left _ hq
  have hpages : (Finset.range (2 ^ 15)).filter (Covers (pageNode x₀ k)) =
      Finset.Ico x₀ (x₀ + 2 ^ k) := by
    ext x
    simp only [Finset.mem_filter, Finset.mem_range, Finset.mem_Ico, Covers,
      nodeStart_pageNode hk hx, nodeSize_pageNode hk hx, Nat.div_mul_cancel hdvd]
    omega
  rw [← Finset.sum_filter, hpages, Finset.sum_const_nat fun _ _ => rfl, Nat.card_Ico,
    nodeSize_pageNode hk hx, Nat.add_sub_cancel_left, Nat.mul_comm]

/-- Every page is in one block, so the blocks fill the heap. -/
theorem sum_block_bytes {w : HeapWorld} (h : HeapWellFormed w) :
    ∑ m ∈ Finset.Ico 1 treeSize,
      (bytesOf w.heap.tree .free m + bytesOf w.heap.tree .alloc m) = kernelHeapSize := by
  classical
  calc ∑ m ∈ Finset.Ico 1 treeSize,
        (bytesOf w.heap.tree .free m + bytesOf w.heap.tree .alloc m)
      = ∑ m ∈ Finset.Ico 1 treeSize, ∑ x ∈ Finset.range (2 ^ 15),
          if IsBlock w.heap.tree m ∧ Covers m x then 4096 else 0 := by
        apply Finset.sum_congr rfl
        intro m hm
        obtain ⟨hone, hlt⟩ := Finset.mem_Ico.mp hm
        by_cases hblock : IsBlock w.heap.tree m
        · simp only [hblock, true_and]
          rw [← nodeSize_eq_sum hone hlt]
          obtain hfree | halloc := hblock
          · simp [bytesOf, hfree]
          · simp [bytesOf, halloc]
        · have hkinds := not_or.mp hblock
          simp [hblock, bytesOf, hkinds.1, hkinds.2]
    _ = ∑ x ∈ Finset.range (2 ^ 15), ∑ m ∈ Finset.Ico 1 treeSize,
          if IsBlock w.heap.tree m ∧ Covers m x then 4096 else 0 := Finset.sum_comm
    _ = ∑ x ∈ Finset.range (2 ^ 15), 4096 := by
        apply Finset.sum_congr rfl
        intro x hx
        have hpage := Finset.mem_range.mp hx
        obtain ⟨m, ⟨⟨hone, hlt, hblock⟩, hcover⟩, honly⟩ :=
          h.tiled (kernelHeapVirt + 4096 * x) (Nat.le_add_right _ _) (by
            unfold kernelHeapEnd kernelHeapSize
            omega)
        rw [Finset.sum_eq_single m]
        · exact if_pos ⟨hblock, hcover⟩
        · intro m' hm' hne
          obtain ⟨hone', hlt'⟩ := Finset.mem_Ico.mp hm'
          exact if_neg fun hcover' => hne (honly m' ⟨⟨hone', hlt', hcover'.1⟩, hcover'.2⟩)
        · exact fun hnot => absurd (Finset.mem_Ico.mpr ⟨hone, hlt⟩) hnot
    _ = kernelHeapSize := by
        rw [Finset.sum_const_nat fun _ _ => rfl, Finset.card_range]
        rfl

theorem sum_range'_map (f : Nat → Nat) (a n : Nat) :
    ((List.range' a n).map f).sum = ∑ m ∈ Finset.Ico a (a + n), f m := by
  induction n with
  | zero => simp
  | succ n ih =>
    rw [List.range'_concat, List.map_append, List.sum_append, ih, Nat.one_mul, ← Nat.add_assoc,
      Finset.sum_Ico_succ_top (Nat.le_add_right a n)]
    simp

/-- The free and the allocated bytes fill the heap. -/
theorem status_bytes {w : HeapWorld} (h : HeapWellFormed w) :
    (heapStatusBytes w.heap.tree).1 + (heapStatusBytes w.heap.tree).2 = kernelHeapSize := by
  have hsum := sum_block_bytes h
  have hnodes : treeSize = 1 + (treeSize - 1) := by decide
  rw [hnodes, Finset.sum_add_distrib, ← sum_range'_map, ← sum_range'_map] at hsum
  unfold heapStatusBytes
  rw [statusRound_foldl _ _ _ (by decide) (by decide)]
  unfold wrap32 kernelHeapSize at *
  omega

/-- The heap has at most as many live blocks as pages. -/
theorem HeapRep.length_le {w : HeapWorld} {t : BuddyTree 15} (h : HeapRep w t) :
    w.live.length ≤ 2 ^ 15 := by
  have hnodup : (w.live.map LiveBlock.ptr).Nodup := List.pairwise_map.mpr h.distinct
  have hpages : w.live.map LiveBlock.ptr ⊆
      (List.range (2 ^ 15)).map fun start => blockAddr start + blockHeaderSize := by
    intro ptr hptr
    obtain ⟨b, hb, rfl⟩ := List.mem_map.mp hptr
    obtain ⟨start, level, hblock, hocc, -⟩ := h.live b hb
    exact List.mem_map.mpr ⟨start, List.mem_range.mpr hblock.lt, hocc.ptr.symm⟩
  have hlength := (hnodup.subperm hpages).length_le
  simpa only [List.length_map, List.length_range] using hlength

theorem Balanced.balance {w : HeapWorld} (h : Balanced w) (hle : w.live.length ≤ 2 ^ 15) :
    heapCheckBalance w.heap = w.live.length := by
  have hlive : wrap32 (w.heap.totalAllocs + (4294967296 - w.heap.totalFrees)) =
      w.live.length := by
    rw [h.allocs]
    have hfrees := h.frees
    unfold wrap32
    omega
  rw [heapCheckBalance, hlive, int32, if_pos (by omega)]

/-- Every offered step but a free of a pointer just beyond the heap goes on. -/
theorem HeapAccounts.step_isSome {a : HeapHistory} (h : HeapAccounts a) {op : HeapOp}
    (hpos : op.Tolerated a) : (a.step op).isSome := by
  cases op with
  | kmalloc size => rfl
  | kfree ptr =>
    by_cases hlive : a.world.IsLive ptr
    · obtain ⟨t, hrep⟩ := h.rep
      obtain ⟨w', start, hw, -⟩ := kfree_counts hrep hlive
      simp [HeapHistory.step, hw]
    · simp [h.step_dead hpos hlive]
  | write addr value => rfl

/-- The balance is the number of live blocks, the blocks fill the heap, and bad frees change
nothing. -/
theorem heap_accounts (mem : Nat → Nat) (a : HeapHistory)
    (h : Reach HeapHistory.step (fun a op => op.Tolerated a) (HeapHistory.init mem) a) :
    heapCheckBalance a.world.heap = a.world.live.length ∧
      (heapStatusBytes a.world.heap.tree).1 + (heapStatusBytes a.world.heap.tree).2 =
        kernelHeapSize ∧
      (∀ ptr, HeapOp.Tolerated a (.kfree ptr) → ¬a.world.IsLive ptr →
        kfree a.world.heap ptr = some a.world.heap) ∧
      ∀ op : HeapOp, op.Tolerated a → (a.step op).isSome := by
  have haccounts := HeapAccounts.reach h
  obtain ⟨t, hrep⟩ := haccounts.rep
  exact ⟨haccounts.balanced.balance hrep.length_le, status_bytes hrep.wellFormed,
    fun ptr hpos hdead => haccounts.kfree_dead hpos hdead, fun op hpos => haccounts.step_isSome hpos⟩

/-- A heap in which the first block was freed. -/
def freedOnce : HeapHistory :=
  ⟨⟨(kfree (kmalloc (heapInit fun _ => 0) 100).1 0xD0000008).getD (heapInit fun _ => 0), []⟩,
    [0xD0000008]⟩

/-- The second free of a pointer changes nothing. -/
theorem heap_accounts_double_free :
    heapCheckBalance freedOnce.world.heap = 0 ∧
      kfree freedOnce.world.heap 0xD0000008 = some freedOnce.world.heap := by
  have hrun : Reach HeapHistory.step (fun a op => op.Tolerated a) (HeapHistory.init fun _ => 0)
      ⟨⟨(kmalloc (heapInit fun _ => 0) 100).1, [⟨0xD0000008, 100⟩]⟩, []⟩ :=
    .next (i := .kmalloc 100) .start ⟨trivial, trivial⟩ rfl
  have hlive : HeapOp.Tolerated
      ⟨⟨(kmalloc (heapInit fun _ => 0) 100).1, [⟨0xD0000008, 100⟩]⟩, []⟩ (.kfree 0xD0000008) :=
    ⟨⟨by decide, Or.inl ⟨_, List.mem_cons_self, rfl⟩⟩, fun hend => absurd hend (by decide)⟩
  have hfreed : Reach HeapHistory.step (fun a op => op.Tolerated a)
      (HeapHistory.init fun _ => 0) freedOnce := hrun.next hlive rfl
  have hagain : HeapOp.Tolerated freedOnce (.kfree 0xD0000008) :=
    ⟨⟨by decide, Or.inr (Or.inl List.mem_cons_self)⟩, fun hend => absurd hend (by decide)⟩
  obtain ⟨hbalance, -, hbad, -⟩ := heap_accounts (fun _ => 0) freedOnce hfreed
  exact ⟨hbalance, hbad _ hagain (by decide)⟩

/-- A heap that is one block, with a header in its last two words. -/
def fullHeap : HeapHistory :=
  let s := ((kmalloc (heapInit fun _ => 0) 134217720).1.store 0xD7FFFFF8 4096).store 0xD7FFFFFC
    headerMagic
  ⟨⟨s, [⟨0xD0000008, 134217720⟩]⟩, []⟩

/-- The pointer just beyond a full heap is freed: the block stays live and the balance is 0. -/
theorem kfree_beyond_heap : ¬∀ (mem : Nat → Nat) (a : HeapHistory),
    Reach HeapHistory.step (fun a op => op.Offered a) (HeapHistory.init mem) a →
      heapCheckBalance a.world.heap = a.world.live.length := by
  intro h
  have hinside : ∀ s : HeapState, ∀ addr value, addr % 4 = 0 → 0xD0000008 ≤ addr →
      addr + 4 ≤ 0xD8000000 → HeapOp.Offered ⟨⟨s, [⟨0xD0000008, 134217720⟩]⟩, []⟩
        (.write addr value) := by
    intro s addr value hword hlow hhigh
    exact ⟨⟨_, List.mem_cons_self, hword, hlow, hhigh⟩, fun hfreed => by cases hfreed⟩
  have hfull : Reach HeapHistory.step (fun a op => op.Offered a) (HeapHistory.init fun _ => 0)
      fullHeap :=
    .next (i := .write 0xD7FFFFFC headerMagic)
      (.next (i := .write 0xD7FFFFF8 4096) (.next (i := .kmalloc 134217720) .start trivial rfl)
        (hinside _ _ _ (by decide) (by decide) (by decide)) rfl)
      (hinside _ _ _ (by decide) (by decide) (by decide)) rfl
  have hbeyond : HeapOp.Offered fullHeap (.kfree 0xD8000000) :=
    ⟨by decide, Or.inr (Or.inr (Or.inr (by decide)))⟩
  have hbalance := h _ _ (hfull.next hbeyond rfl)
  exact absurd hbalance (by decide)

end EnclaveOS
