import EnclaveOS.Memory.VmaScans
import EnclaveOS.Process.VmaRuns

/-!
# VmaPlacement - where `sys_mmap` places a mapping

`vma_find_free_area` is a first fit over the gaps behind `USER_MMAP_START`.  Only the
place behind the last area is compared with the end of the window; a gap in front of an area above
the window, such as the stack, is not.
-/

namespace EnclaveOS

open PageWord IntervalList

/-- A page-aligned place inside the window that shares no address with an area. -/
structure Placement (vmas : List Vma) (size a : Nat) : Prop where
  aligned : a % 4096 = 0
  inside : userMmapStart ≤ a ∧ a + size ≤ userMmapStart + userMmapMaxSize
  apart : ∀ v ∈ vmas, ∀ x, v.Holds x → ¬(a ≤ x ∧ x < a + size)

/-- The answer is a place, or 0 when there is none. -/
def PlacementAnswer (vmas : List Vma) (size r : Nat) : Prop :=
  Placement vmas size r ∨ r = 0 ∧ ∀ a, ¬Placement vmas size a

/-- A gap at or above the start of the window lies below an area. -/
def GapBelowArea (vmas : List Vma) (size : Nat) : Prop :=
  ∃ a, userMmapStart ≤ a ∧ (∀ v ∈ vmas, ∀ x, v.Holds x → ¬(a ≤ x ∧ x < a + size)) ∧
    ∃ v ∈ vmas, a + size ≤ v.start

/-- Behind an area at the end of user space the sum of the last test wraps. -/
def PlacementWraps (vmas : List Vma) (size : Nat) : Prop :=
  size = userMmapMaxSize ∧ ∃ v ∈ vmas, v.end = kernelSpaceStart

/-- An area below the window, or a nonempty one that ends at a page of user space. -/
def VmaPlaced (v : Vma) : Prop :=
  v.start ≤ userMmapStart ∧ v.end ≤ userMmapStart ∨
    v.start < v.end ∧ v.end ≤ kernelSpaceStart ∧ v.end % 4096 = 0

/-- The areas that end inside or above the window. -/
def mmapVmas (vmas : List Vma) : List Vma :=
  vmas.filter fun v => userMmapStart < v.end

theorem mem_mmapVmas {vmas : List Vma} {v : Vma} :
    v ∈ mmapVmas vmas ↔ v ∈ vmas ∧ userMmapStart < v.end := by
  simp [mmapVmas]

section Walk

variable {vmas : List Vma} {size a : Nat}

/-- The walk is a first fit over the areas that end inside or above the window. -/
theorem vmaFindFreeAreaFrom_eq (hsize : 0 < size) (base : Nat) (vmas : List Vma) :
    vmaFindFreeAreaFrom size base vmas =
      match firstGap Vma.start Vma.end size base (mmapVmas vmas) with
      | some r => r
      | none =>
        if wrap32 (lastEnd Vma.end base (mmapVmas vmas) + size) ≤ userMmapStart + userMmapMaxSize
        then lastEnd Vma.end base (mmapVmas vmas) else 0 := by
  induction vmas generalizing base with
  | nil => rfl
  | cons curr rest ih =>
    rw [vmaFindFreeAreaFrom]
    by_cases hlow : curr.end ≤ userMmapStart
    · have hskip : mmapVmas (curr :: rest) = mmapVmas rest := by
        simp [mmapVmas, Nat.not_lt.mpr hlow]
      rw [if_pos hlow, hskip, ih]
    · have hkeep : mmapVmas (curr :: rest) = curr :: mmapVmas rest := by
        simp [mmapVmas, Nat.not_le.mp hlow]
      rw [if_neg hlow, hkeep, firstGap, lastEnd, ih]
      by_cases hgap : base + size ≤ curr.start
      · rw [if_pos (by omega), if_pos hgap]
      · rw [if_neg (by omega), if_neg hgap]

theorem vmaFindFreeArea_eq (hsize : 0 < size) :
    vmaFindFreeArea vmas size =
      match firstGap Vma.start Vma.end size userMmapStart (mmapVmas vmas) with
      | some r => r
      | none =>
        if wrap32 (lastEnd Vma.end userMmapStart (mmapVmas vmas) + size) ≤
            userMmapStart + userMmapMaxSize
        then lastEnd Vma.end userMmapStart (mmapVmas vmas) else 0 :=
  vmaFindFreeAreaFrom_eq hsize userMmapStart vmas

theorem placed_of_mem (hplaced : ∀ v ∈ vmas, VmaPlaced v) {v : Vma} (hv : v ∈ mmapVmas vmas) :
    v.start < v.end ∧ v.end ≤ kernelSpaceStart ∧ v.end % 4096 = 0 := by
  obtain ⟨hmem, hend⟩ := mem_mmapVmas.mp hv
  exact (hplaced v hmem).resolve_left fun h => absurd h.2 (Nat.not_le.mpr hend)

/-- The areas behind the start of the window lie one behind the other. -/
theorem mmapVmas_laid (h : SortedDisjoint vmas) (hplaced : ∀ v ∈ vmas, VmaPlaced v) :
    Laid Vma.start Vma.end userMmapStart (mmapVmas vmas) := by
  constructor
  · have hsorted := h.sorted.filter fun v => decide (userMmapStart < v.end)
    have hdisjoint := h.disjoint.filter fun v => decide (userMmapStart < v.end)
    refine (hsorted.and hdisjoint).imp_of_mem ?_
    intro v w hv hw hvw
    have hw' := placed_of_mem hplaced hw
    by_contra hle
    exact hvw.2 w.start ⟨⟨hvw.1, Nat.not_le.mp hle⟩, le_rfl, hw'.1⟩
  · exact fun v hv => (placed_of_mem hplaced hv).1.le
  · exact fun v hv => (mem_mmapVmas.mp hv).2.le

/-- A place behind the start of the window is apart from the areas when it is free of those that
end there. -/
theorem apart_iff_free (hplaced : ∀ v ∈ vmas, VmaPlaced v) (hsize : 0 < size)
    (ha : userMmapStart ≤ a) :
    (∀ v ∈ vmas, ∀ x, v.Holds x → ¬(a ≤ x ∧ x < a + size)) ↔
      Free Vma.start Vma.end size (mmapVmas vmas) a := by
  constructor
  · intro hapart v hv
    have hv' := placed_of_mem hplaced hv
    by_contra hnot
    push Not at hnot
    refine hapart v (mem_mmapVmas.mp hv).1 (max a v.start) ⟨?_, ?_⟩ ⟨?_, ?_⟩ <;> omega
  · intro hfree v hv x hx hin
    unfold Vma.Holds at hx
    by_cases hend : userMmapStart < v.end
    · have := hfree v (mem_mmapVmas.mpr ⟨hv, hend⟩)
      omega
    · omega

theorem gapBelowArea_iff (h : SortedDisjoint vmas) (hplaced : ∀ v ∈ vmas, VmaPlaced v)
    (hsize : 0 < size) :
    GapBelowArea vmas size ↔
      ∃ r, firstGap Vma.start Vma.end size userMmapStart (mmapVmas vmas) = some r := by
  rw [firstGap_isSome_iff (mmapVmas_laid h hplaced)]
  refine exists_congr fun a => and_congr_right fun ha => ?_
  rw [apart_iff_free hplaced hsize ha]
  refine and_congr_right fun _ => exists_congr fun v => ?_
  rw [mem_mmapVmas]
  constructor
  · intro hbelow
    refine ⟨⟨hbelow.1, ?_⟩, hbelow.2⟩
    have hv := hplaced v hbelow.1
    unfold VmaPlaced at hv
    omega
  · exact fun hbelow => ⟨hbelow.1.1, hbelow.2⟩

/-- The start of the window and the ends of the areas behind it are page-aligned. -/
theorem aligned_of_mmap (hplaced : ∀ v ∈ vmas, VmaPlaced v) {r : Nat}
    (h : r = userMmapStart ∨ ∃ v ∈ mmapVmas vmas, v.end = r) : r % 4096 = 0 := by
  cases h with
  | inl heq =>
    rw [heq]
    decide
  | inr hmem =>
    obtain ⟨v, hv, heq⟩ := hmem
    exact heq ▸ (placed_of_mem hplaced hv).2.2

/-- Every answer is page-aligned. -/
theorem vmaFindFreeArea_aligned (hplaced : ∀ v ∈ vmas, VmaPlaced v) (hsize : 0 < size) :
    vmaFindFreeArea vmas size % 4096 = 0 := by
  rw [vmaFindFreeArea_eq hsize]
  cases hgap : firstGap Vma.start Vma.end size userMmapStart (mmapVmas vmas) with
  | some r => exact aligned_of_mmap hplaced (firstGap_mem hgap)
  | none =>
    dsimp only
    split_ifs
    · exact aligned_of_mmap hplaced (lastEnd_mem Vma.end userMmapStart (mmapVmas vmas))
    · rfl

/-- The end of the last area behind the start of the window. -/
theorem lastEnd_mmap (h : SortedDisjoint vmas) (hplaced : ∀ v ∈ vmas, VmaPlaced v) {e : Nat}
    (he : lastEnd Vma.end userMmapStart (mmapVmas vmas) = e) :
    userMmapStart ≤ e ∧ e ≤ kernelSpaceStart ∧ e % 4096 = 0 ∧
      (∀ v ∈ mmapVmas vmas, v.end ≤ e) ∧
      (e = kernelSpaceStart → ∃ v ∈ vmas, v.end = kernelSpaceStart) := by
  obtain ⟨hle, hall⟩ := le_lastEnd (mmapVmas_laid h hplaced)
  have hmem := lastEnd_mem Vma.end userMmapStart (mmapVmas vmas)
  rw [he] at hle hall hmem
  have haligned := aligned_of_mmap hplaced hmem
  cases hmem with
  | inl heq =>
    rw [heq] at hall ⊢
    exact ⟨le_rfl, by decide, by decide, hall, fun h => absurd h (by decide)⟩
  | inr hmem =>
    obtain ⟨v, hv, heq⟩ := hmem
    have hbelow := (placed_of_mem hplaced hv).2.1
    rw [heq] at hbelow
    exact ⟨hle, hbelow, haligned, hall, fun h => ⟨v, (mem_mmapVmas.mp hv).1, heq.trans h⟩⟩

/-- A window with room is used. -/
theorem vmaFindFreeArea_of_room (h : SortedDisjoint vmas) (hplaced : ∀ v ∈ vmas, VmaPlaced v)
    (hsize : 0 < size) (hroom : Placement vmas size a) :
    Placement vmas size (vmaFindFreeArea vmas size) := by
  have hlaid := mmapVmas_laid h hplaced
  obtain ⟨hstart, hstop⟩ := hroom.inside
  have hfree := (apart_iff_free hplaced hsize hstart).mp hroom.apart
  rw [vmaFindFreeArea_eq hsize]
  cases hgap : firstGap Vma.start Vma.end size userMmapStart (mmapVmas vmas) with
  | some r =>
    obtain ⟨hbase, hfree', -⟩ := firstGap_free hlaid hgap
    have hle := firstGap_le hfree hstart hgap
    have hend : r + size ≤ userMmapStart + userMmapMaxSize := by omega
    exact ⟨aligned_of_mmap hplaced (firstGap_mem hgap), ⟨hbase, hend⟩,
      (apart_iff_free hplaced hsize hbase).mpr hfree'⟩
  | none =>
    generalize he : lastEnd Vma.end userMmapStart (mmapVmas vmas) = e
    obtain ⟨hbase, -, haligned, hall, -⟩ := lastEnd_mmap h hplaced he
    have hbelow : ∀ v ∈ mmapVmas vmas, v.end ≤ a := by
      intro v hv
      refine (hfree v hv).resolve_right fun hfront => ?_
      obtain ⟨r, hr⟩ := firstGap_isSome hfree hstart ⟨v, hv, hfront⟩
      rw [hgap] at hr
      cases hr
    have hle : e ≤ a := he ▸ lastEnd_le hstart hbelow
    have hsum : e + size ≤ userMmapStart + userMmapMaxSize := by omega
    have hnowrap : wrap32 (e + size) = e + size :=
      Nat.mod_eq_of_lt (hsum.trans_lt (by decide))
    dsimp only
    rw [hnowrap, if_pos hsum]
    exact ⟨haligned, ⟨hbase, hsum⟩,
      (apart_iff_free hplaced hsize hbase).mpr fun v hv => Or.inl (hall v hv)⟩

/-- On a window without room the walk gives up, unless it takes a gap below an area or its last
sum wraps. -/
theorem vmaFindFreeArea_eq_zero_iff (h : SortedDisjoint vmas) (hplaced : ∀ v ∈ vmas, VmaPlaced v)
    (hsize : 0 < size) (hmax : size ≤ userMmapMaxSize) (hfull : ∀ a, ¬Placement vmas size a) :
    vmaFindFreeArea vmas size = 0 ↔ ¬GapBelowArea vmas size ∧ ¬PlacementWraps vmas size := by
  have hlaid := mmapVmas_laid h hplaced
  have hpos : 0 < userMmapStart := by decide
  rw [vmaFindFreeArea_eq hsize, gapBelowArea_iff h hplaced hsize]
  cases hgap : firstGap Vma.start Vma.end size userMmapStart (mmapVmas vmas) with
  | some r =>
    have hbase := (firstGap_free hlaid hgap).1
    dsimp only
    constructor
    · intro hzero
      omega
    · intro hnone
      exact absurd ⟨r, rfl⟩ hnone.1
  | none =>
    generalize he : lastEnd Vma.end userMmapStart (mmapVmas vmas) = e
    obtain ⟨hbase, hbelow, haligned, hall, hkernel⟩ := lastEnd_mmap h hplaced he
    dsimp only
    have hover : ¬e + size ≤ userMmapStart + userMmapMaxSize := by
      intro hsum
      exact hfull e ⟨haligned, ⟨hbase, hsum⟩,
        (apart_iff_free hplaced hsize hbase).mpr fun v hv => Or.inl (hall v hv)⟩
    -- the sum is above the window, so the test passes only when it wraps
    have hwraps : wrap32 (e + size) ≤ userMmapStart + userMmapMaxSize ↔
        PlacementWraps vmas size := by
      unfold wrap32
      constructor
      · intro htest
        unfold userMmapStart userMmapMaxSize kernelSpaceStart at *
        exact ⟨by unfold userMmapMaxSize; omega, hkernel (by omega)⟩
      · intro hwrap
        obtain ⟨hsize', v, hv, hend⟩ := hwrap
        have hle := hall v (mem_mmapVmas.mpr ⟨hv, by rw [hend]; decide⟩)
        unfold userMmapStart userMmapMaxSize kernelSpaceStart at *
        omega
    by_cases htest : wrap32 (e + size) ≤ userMmapStart + userMmapMaxSize
    · rw [if_pos htest]
      constructor
      · intro hzero
        omega
      · intro hnone
        exact absurd (hwraps.mp htest) hnone.2
    · rw [if_neg htest]
      simpa using fun hwrap => htest (hwraps.mpr hwrap)

end Walk

/-- What builds an area list: the stack and the heap of a new image, the break, a mapping. -/
inductive AreaOp
  | image (k : Kmalloc)
  | brk (p : Pmm) (newBrk : Nat) (k : Kmalloc)
  | mmap (addr len : Nat) (prot flags : Word) (k : Kmalloc)

/-- The arguments are 32-bit values. -/
def AreaOp.Possible : AreaOp → Prop
  | .image _ => True
  | .brk _ newBrk _ => newBrk < 4294967296
  | .mmap addr len _ _ _ => addr < 4294967296 ∧ len < 4294967296

def AreaOp.step (vmas : List Vma) : AreaOp → Option (List Vma)
  | .image k => some (addStackAndHeap vmas k).1
  | .brk p newBrk k => some (sysBrk p vmas newBrk k).1
  | .mmap addr len prot flags k => some (sysMmap vmas addr len prot flags k).1

section Runs

variable {vmas : List Vma}

theorem vmaPlaced_add {start stop : Nat} {flags : Word} {k : Kmalloc}
    (hplaced : ∀ v ∈ vmas, VmaPlaced v)
    (hnew : start < kernelSpaceStart → stop ≤ kernelSpaceStart →
      VmaPlaced ⟨pageDown start, pageUp stop, flags⟩) :
    ∀ v ∈ (vmaAdd vmas start stop flags k).1, VmaPlaced v := by
  intro v hv
  rcases vmaAdd_cases vmas start stop flags k with ⟨hsame, -⟩ | ⟨hstart, hstop, hinsert, -⟩
  · rw [hsame] at hv
    exact hplaced v hv
  · rw [hinsert] at hv
    cases mem_vmaInsert.mp hv with
    | inl heq => exact heq ▸ hnew hstart hstop
    | inr hmem => exact hplaced v hmem

theorem vmaPlaced_image (hplaced : ∀ v ∈ vmas, VmaPlaced v) (k : Kmalloc) :
    ∀ v ∈ (addStackAndHeap vmas k).1, VmaPlaced v := by
  have hstack : ∀ v ∈ (vmaAdd vmas (userStackVirtTop - userStackSize) userStackVirtTop
      (vmaRead ||| vmaWrite) k).1, VmaPlaced v :=
    vmaPlaced_add hplaced fun _ _ => Or.inr (by decide)
  unfold addStackAndHeap
  rcases hres : vmaAdd vmas (userStackVirtTop - userStackSize) userStackVirtTop
    (vmaRead ||| vmaWrite) k with ⟨vmas', ret, k'⟩
  rw [hres] at hstack
  dsimp only
  split_ifs
  · exact hstack
  · exact vmaPlaced_add hstack fun _ _ => Or.inl (by decide)

theorem vmaPlaced_brk (hplaced : ∀ v ∈ vmas, VmaPlaced v) (p : Pmm) (newBrk : Nat) (k : Kmalloc) :
    ∀ v ∈ (sysBrk p vmas newBrk k).1, VmaPlaced v := by
  rcases sysBrk_vmas p vmas newBrk k with hsame | ⟨-, hlimit, hbrk⟩
  · rw [hsame]
    exact hplaced
  · have hlow : newBrk ≤ userMmapStart := hlimit.trans (by decide)
    rcases hbrk with ⟨-, hadd⟩ | ⟨pos, heap, hheap, hset, -⟩
    · rw [hadd]
      refine vmaPlaced_add hplaced fun _ _ => Or.inl ⟨?_, ?_⟩
      · exact (pageDown_le userHeapStart).trans (by decide)
      · exact pageUp_le hlow (by decide) (by decide)
    · rw [hset]
      intro v hv
      cases List.mem_or_eq_of_mem_set hv with
      | inl hmem => exact hplaced v hmem
      | inr heq =>
        refine Or.inl ?_
        rw [heq, (heapVma_some hheap).2]
        exact ⟨by decide, hlow⟩

theorem vmaPlaced_mmap (hplaced : ∀ v ∈ vmas, VmaPlaced v) (addr len : Nat) (prot flags : Word)
    (k : Kmalloc) : ∀ v ∈ (sysMmap vmas addr len prot flags k).1, VmaPlaced v := by
  rcases sysMmap_vmas vmas addr len prot flags k with hsame | ⟨haccepted, a, haddr, hadd⟩
  · rw [hsame]
    exact hplaced
  · rw [hadd]
    have hlen : 0 < pageUp len := by
      have := le_pageUp (haccepted.fits.trans (by decide : userMmapMaxSize ≤ 0xFFFFF000))
      have := haccepted.nonempty
      omega
    have hfits : pageUp len ≤ userMmapMaxSize :=
      pageUp_le haccepted.fits (by decide) (by decide)
    have haligned : a % 4096 = 0 := by
      unfold mmapAddr at haddr
      split_ifs at haddr
      · cases haddr
        exact vmaFindFreeArea_aligned hplaced hlen
      · cases haddr
        exact pageDown_mod addr
    refine vmaPlaced_add hplaced fun hstart hstop => Or.inr ?_
    have hlen' := pageUp_mod len
    have hnowrap : a + pageUp len < 4294967296 := by
      unfold kernelSpaceStart userMmapMaxSize at *
      omega
    have hwrap : wrap32 (a + pageUp len) = a + pageUp len := Nat.mod_eq_of_lt hnowrap
    rw [hwrap] at hstop ⊢
    have hend : pageUp (a + pageUp len) = a + pageUp len :=
      le_antisymm (pageUp_le le_rfl (by omega) (by omega)) (le_pageUp (by omega))
    dsimp only
    rw [hend, pageDown_eq_self haligned]
    exact ⟨by omega, hstop, by omega⟩

/-- Every area of a list that is reached is empty, or ends at a page, or lies below the window. -/
theorem vmaPlaced_reached
    (hrun : Reach AreaOp.step (fun _ op => op.Possible) [] vmas) : ∀ v ∈ vmas, VmaPlaced v := by
  refine hrun.invariant (P := fun vmas => ∀ v ∈ vmas, VmaPlaced v) (by simp) ?_
  intro vmas op vmas' hplaced _ hstep
  cases op with
  | image k =>
    cases hstep
    exact vmaPlaced_image hplaced k
  | brk p newBrk k =>
    cases hstep
    exact vmaPlaced_brk hplaced p newBrk k
  | mmap addr len prot flags k =>
    cases hstep
    exact vmaPlaced_mmap hplaced addr len prot flags k

/-- The answer is right when the window has room, or when there is no gap below an area and the
last sum does not wrap. -/
theorem mmap_placement_iff {size : Nat}
    (hrun : Reach AreaOp.step (fun _ op => op.Possible) [] vmas) (h : SortedDisjoint vmas)
    (hsize : 0 < size) (hmax : size ≤ userMmapMaxSize) :
    PlacementAnswer vmas size (vmaFindFreeArea vmas size) ↔
      (∃ a, Placement vmas size a) ∨
        ¬GapBelowArea vmas size ∧ ¬PlacementWraps vmas size := by
  have hplaced := vmaPlaced_reached hrun
  by_cases hroom : ∃ a, Placement vmas size a
  · obtain ⟨a, ha⟩ := hroom
    have hanswer := vmaFindFreeArea_of_room h hplaced hsize ha
    exact iff_of_true (Or.inl hanswer) (Or.inl ⟨a, ha⟩)
  · have hfull := not_exists.mp hroom
    rw [← vmaFindFreeArea_eq_zero_iff h hplaced hsize hmax hfull, PlacementAnswer]
    simp [hfull]

end Runs

theorem freshVmas_reached : Reach AreaOp.step (fun _ op => op.Possible) [] freshVmas :=
  .next .start (i := .image []) trivial rfl

/-- A new image has room for a page. -/
theorem mmap_placement_fresh :
    PlacementAnswer freshVmas 4096 (vmaFindFreeArea freshVmas 4096) := by
  have hroom : Placement freshVmas 4096 userMmapStart := by
    refine ⟨by decide, by decide, fun v hv x hx => ?_⟩
    unfold Vma.Holds at hx
    unfold userMmapStart
    cases mem_freshVmas.mp hv with
    | inl heap =>
      subst heap
      dsimp only at hx
      omega
    | inr stack =>
      subst stack
      unfold userStackVirtTop userStackSize at hx
      dsimp only at hx
      omega
  exact (mmap_placement_iff freshVmas_reached freshVmas_sortedDisjoint (by decide)
    (by decide)).mpr (Or.inl ⟨_, hroom⟩)

/-- The stack and the heap after a fixed mapping of the whole window. -/
def fullWindowVmas : List Vma :=
  [⟨userHeapStart, userHeapStart, vmaRead ||| vmaWrite⟩,
    ⟨userMmapStart, userMmapStart + userMmapMaxSize, vmaRead⟩,
    ⟨userStackVirtTop - userStackSize, userStackVirtTop, vmaRead ||| vmaWrite⟩]

theorem fullWindowVmas_reached : Reach AreaOp.step (fun _ op => op.Possible) [] fullWindowVmas :=
  .next freshVmas_reached
    (i := .mmap userMmapStart userMmapMaxSize protRead (mapPrivate ||| mapAnonymous) [])
    ⟨by decide, by decide⟩ (by decide)

theorem fullWindowVmas_sortedDisjoint : SortedDisjoint fullWindowVmas := by
  constructor
  · decide
  · have hseparated : fullWindowVmas.Pairwise fun a b => a.end ≤ b.start := by decide
    refine hseparated.imp fun hle x hx => ?_
    exact absurd (hx.1.2.trans_le (hle.trans hx.2.1)) (lt_irrefl x)

/-- With a full window the gap below the stack is answered, outside the window. -/
theorem full_window_answers_outside : ¬ ∀ (vmas : List Vma) (size : Nat),
    Reach AreaOp.step (fun _ op => op.Possible) [] vmas → SortedDisjoint vmas →
    size % 4096 = 0 → 4096 ≤ size → size ≤ userMmapMaxSize →
    PlacementAnswer vmas size (vmaFindFreeArea vmas size) := by
  intro hall
  have hanswer := hall fullWindowVmas 4096 fullWindowVmas_reached fullWindowVmas_sortedDisjoint
    (by decide) (by decide) (by decide)
  have houtside : vmaFindFreeArea fullWindowVmas 4096 = 0x80000000 := by decide
  rw [houtside] at hanswer
  cases hanswer with
  | inl hplaced => exact absurd hplaced.inside.2 (by decide)
  | inr hzero => exact absurd hzero.1 (by decide)

end EnclaveOS
