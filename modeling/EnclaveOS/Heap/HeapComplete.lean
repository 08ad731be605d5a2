import EnclaveOS.Heap.HeapRuns
import Mathlib.Order.Bounds.Basic

/-!
# HeapComplete - where the heap has room

`kmalloc` prunes its search at the level that it needs, and takes the first free node at that
level or above.  No two buddies are free, so that it finds a block wherever the live blocks leave
an aligned place for one.
-/

namespace EnclaveOS

/-- The sizes that are large enough for a request. -/
def SufficientSizes (size : Nat) : Set Nat :=
  {p | (∃ k, p = 2 ^ k) ∧ 4096 ≤ p ∧ size + blockHeaderSize ≤ p}

/-- The smallest one. -/
def sizeClass (size : Nat) : Nat := 2 ^ max 12 (Nat.clog 2 (size + blockHeaderSize))

theorem sizeClass_isLeast (size : Nat) : IsLeast (SufficientSizes size) (sizeClass size) := by
  constructor
  · refine ⟨⟨_, rfl⟩, ?_, ?_⟩
    · exact Nat.pow_le_pow_right Nat.two_pos (le_max_left 12 _)
    · exact (Nat.le_pow_clog Nat.one_lt_two _).trans
        (Nat.pow_le_pow_right Nat.two_pos (le_max_right _ _))
  · rintro p ⟨⟨k, rfl⟩, hpage, hsize⟩
    apply Nat.pow_le_pow_right Nat.two_pos
    have hk : 12 ≤ k := (Nat.pow_le_pow_iff_right Nat.one_lt_two).mp hpage
    exact max_le hk ((Nat.clog_le_iff_le_pow Nat.one_lt_two).mpr hsize)

/-- The loop of `kmalloc` passes only sizes that are too small, and stops at a size that is
large enough or at the last one. -/
theorem blockFor_least (req rounds level : Nat) :
    ∃ found, blockFor req rounds (4096 * 2 ^ level) level = (4096 * 2 ^ found, found) ∧
      level ≤ found ∧ (req ≤ 4096 * 2 ^ found ∨ found = level + rounds) ∧
      ∀ k, level ≤ k → k < found → 4096 * 2 ^ k < req := by
  induction rounds generalizing level with
  | zero => exact ⟨level, rfl, le_rfl, Or.inr rfl, fun k hle hlt => by omega⟩
  | succ rounds ih =>
    unfold blockFor
    split_ifs with hsmall
    · obtain ⟨found, heq, hle, hstop, hleast⟩ := ih (level + 1)
      refine ⟨found, ?_, by omega, hstop.imp_right (by omega), fun k hk hlt => ?_⟩
      · rw [← heq, pow_succ, Nat.mul_assoc]
      · obtain rfl | hk := hk.eq_or_lt
        · exact hsmall
        · exact hleast k hk hlt
    · exact ⟨level, rfl, le_rfl, Or.inl (Nat.le_of_not_lt hsmall), fun k hle hlt => by omega⟩

/-- A request that fits in the heap gets the smallest size that is large enough. -/
theorem blockFor_sizeClass {size : Nat} (hfits : size + blockHeaderSize ≤ kernelHeapSize) :
    ∃ target ≤ 15, blockFor (size + blockHeaderSize) maxOrder 4096 0 = (sizeClass size, target) ∧
      sizeClass size = 4096 * 2 ^ target := by
  obtain ⟨target, heq, -, hstop, hleast⟩ := blockFor_least (size + blockHeaderSize) maxOrder 0
  have hlarge : size + blockHeaderSize ≤ 4096 * 2 ^ target := by
    obtain hlarge | rfl := hstop
    · exact hlarge
    · exact hfits.trans (by decide)
  have hpow : ∀ k, 4096 * 2 ^ k = 2 ^ (12 + k) := fun k => by rw [pow_add]; rfl
  have htarget : target ≤ 15 := by
    by_contra hlt
    have hmax := hleast 15 (Nat.zero_le _) (by omega)
    unfold kernelHeapSize at hfits
    omega
  have hisLeast : IsLeast (SufficientSizes size) (4096 * 2 ^ target) := by
    refine ⟨⟨⟨_, hpow target⟩, ?_, hlarge⟩, ?_⟩
    · exact Nat.le_mul_of_pos_right _ (Nat.two_pow_pos target)
    · rintro p ⟨⟨k, rfl⟩, hpage, hsize⟩
      have hk : 12 ≤ k := (Nat.pow_le_pow_iff_right Nat.one_lt_two).mp hpage
      obtain ⟨j, rfl⟩ := Nat.exists_eq_add_of_le hk
      rw [← hpow] at hsize ⊢
      apply Nat.mul_le_mul_left
      apply Nat.pow_le_pow_right (by decide)
      by_contra hlt
      exact absurd (hleast j (Nat.zero_le _) (by omega)) (by omega)
  have hclass := hisLeast.unique (sizeClass_isLeast size)
  refine ⟨target, htarget, ?_, hclass.symm⟩
  rw [← hclass]
  simpa using heq

/-- An aligned place of the heap that no live block meets. -/
structure HeapWorld.HasRoom (w : HeapWorld) (blockSize addr : Nat) : Prop where
  low : kernelHeapVirt ≤ addr
  aligned : blockSize ∣ addr - kernelHeapVirt
  inside : addr + blockSize ≤ kernelHeapEnd
  apart : ∀ b ∈ w.live, addr + blockSize ≤ b.start ∨ b.start + b.blockSize ≤ addr

namespace HeapRep

variable {w : HeapWorld} {t : BuddyTree 15}

/-- The room in the tree is the room between the live blocks. -/
theorem room_iff (h : HeapRep w t) (target : Nat) :
    (∃ start, t.Room target start) ↔ ∃ addr, w.HasRoom (4096 * 2 ^ target) addr := by
  constructor
  · rintro ⟨start, haligned, hinside, hapart⟩
    refine ⟨blockAddr start, Nat.le_add_right _ _, ?_, ?_, fun b hb => ?_⟩
    · rw [blockAddr, Nat.add_sub_cancel_left]
      exact Nat.mul_dvd_mul_left _ haligned
    · unfold blockAddr kernelHeapEnd kernelHeapSize
      omega
    · obtain ⟨s, e, hblock, hocc, -⟩ := h.live b hb
      have hplace := hapart s e hblock
      rw [hocc.start_eq, hocc.size]
      unfold blockAddr
      omega
  · rintro ⟨addr, hlow, haligned, hinside, hapart⟩
    obtain ⟨q, hq⟩ := haligned
    have haddr : addr = blockAddr (2 ^ target * q) := by
      unfold blockAddr
      rw [Nat.mul_assoc] at hq
      omega
    subst haddr
    refine ⟨2 ^ target * q, Nat.dvd_mul_right _ _, ?_, fun s e hblock => ?_⟩
    · unfold blockAddr kernelHeapEnd kernelHeapSize at hinside
      omega
    · obtain ⟨b, hb, hocc⟩ := h.taken s e hblock
      have hplace := hapart b hb
      rw [hocc.start_eq, hocc.size] at hplace
      unfold blockAddr at hplace
      omega

/-- `kmalloc` fails where it refuses the size or finds no room, and then changes nothing. -/
theorem kmalloc_eq_null (h : HeapRep w t) (size : Nat) :
    ((EnclaveOS.kmalloc w.heap size).2 = 0 ↔ size = 0 ∨ kernelHeapSize < size + blockHeaderSize ∨
      ¬∃ addr, w.HasRoom (sizeClass size) addr) ∧
    ((EnclaveOS.kmalloc w.heap size).2 = 0 → (EnclaveOS.kmalloc w.heap size).1 = w.heap) := by
  by_cases hzero : size = 0
  · simp [EnclaveOS.kmalloc, hzero]
  by_cases hfits : size + blockHeaderSize ≤ kernelHeapSize
  · obtain ⟨target, htarget, hfor, hclass⟩ := blockFor_sizeClass hfits
    have hlarge : ¬sizeClass size < size + blockHeaderSize :=
      Nat.not_lt.mpr (sizeClass_isLeast size).1.2.2
    have hsize : ¬(size = 0 ∨ kernelHeapSize < size) := by omega
    have hroom : (∃ addr, w.HasRoom (sizeClass size) addr) ↔ (t.allocate target).isSome := by
      rw [hclass, ← h.room_iff, BuddyTree.allocate_isSome h.canonical htarget]
    have hfind := findFree_spec h.rep htarget le_rfl
    unfold EnclaveOS.kmalloc
    rw [hroom, if_neg hsize]
    dsimp only
    rw [hfor]
    dsimp only
    rw [if_neg hlarge, maxOrder]
    cases halloc : t.allocate target with
    | none =>
      rw [halloc] at hfind
      rw [hfind]
      simp
    | some res =>
      rw [halloc] at hfind
      obtain ⟨found, depth, hfound, -⟩ := hfind
      have hfull : ¬kernelHeapSize < size + blockHeaderSize := Nat.not_lt.mpr hfits
      have hheader : blockHeaderSize ≠ 0 := by decide
      rw [hfound]
      simp [hzero, hfull, hheader]
  · have hfail : EnclaveOS.kmalloc w.heap size = (w.heap, 0) := by
      obtain hfail | ⟨tree', t', start, target, htarget, -, -, hsmall, -⟩ :=
        kmalloc_spec h.rep size
      · exact hfail
      · have hmax : 2 ^ target ≤ 2 ^ 15 := Nat.pow_le_pow_right Nat.two_pos htarget
        unfold kernelHeapSize at hfits
        omega
    rw [hfail]
    simp [Nat.lt_of_not_le hfits]

end HeapRep

/-- `kmalloc` returns `NULL` only where it has to, and then changes nothing. -/
theorem kmalloc_complete (mem : Nat → Nat) (w : HeapWorld)
    (h : Reach HeapOp.step HeapOp.Possible (HeapWorld.init mem) w) (size : Nat) :
    IsLeast (SufficientSizes size) (sizeClass size) ∧
      ((kmalloc w.heap size).2 = 0 ↔ size = 0 ∨ kernelHeapSize < size + blockHeaderSize ∨
        ¬∃ addr, w.HasRoom (sizeClass size) addr) ∧
      ((kmalloc w.heap size).2 = 0 → (kmalloc w.heap size).1 = w.heap) := by
  obtain ⟨t, hrep⟩ := HeapRep.reach h
  exact ⟨sizeClass_isLeast size, hrep.kmalloc_eq_null size⟩

/-- A block of the size of the heap leaves no room for a byte. -/
theorem kmalloc_complete_full :
    ¬∃ addr, HeapWorld.HasRoom ⟨(kmalloc (heapInit fun _ => 0) 134217720).1,
      [⟨0xD0000008, 134217720⟩]⟩ (sizeClass 1) addr := by
  have hrun : Reach HeapOp.step HeapOp.Possible (HeapWorld.init fun _ => 0)
      ⟨(kmalloc (heapInit fun _ => 0) 134217720).1, [⟨0xD0000008, 134217720⟩]⟩ :=
    .next (i := .kmalloc 134217720) .start trivial rfl
  obtain ⟨-, hnull, -⟩ := kmalloc_complete (fun _ => 0) _ hrun 1
  obtain hzero | hlarge | hroom := hnull.mp (by decide)
  · exact absurd hzero (by decide)
  · exact absurd hlarge (by decide)
  · exact hroom

end EnclaveOS
