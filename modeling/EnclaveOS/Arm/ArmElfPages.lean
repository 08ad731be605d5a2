import EnclaveOS.Arm.ArmElfSpec

/-!
# ArmElfPages - what a load of the ARM kernel gives back

`hal_mmu_destroy_space` gives the second-level tables back and nothing else, so the first page of
a segment or of the stack that is mapped is lost.  What is given back is the load that maps none.
-/

namespace EnclaveOS

open PageWord

namespace PageSource.Lawful

variable {σ : Type} {A : PageSource σ} {held : σ → Nat → Prop} {pmm : σ} {f g : Nat}

theorem aligned (h : A.Lawful held) : ArmLoad.Aligned A := by
  intro pmm
  rcases h.alloc pmm with ⟨hzero, -⟩ | ⟨f, -, hf, -, hres, -⟩
  · exact ⟨0, by decide, hzero⟩
  · exact ⟨f, hf, hres⟩

theorem mono (h : A.Lawful held) (hg : held pmm g) : held (A.allocPage pmm).1 g := by
  rcases h.alloc pmm with ⟨-, hmono⟩ | ⟨f, -, -, -, -, hheld⟩
  · exact hmono g hg
  · exact (hheld g).mpr (Or.inr hg)

/-- A page handed out was free, and is in use. -/
theorem fresh (h : A.Lawful held) (hpos : 0 < f) (hf : f < 1048576)
    (hres : (A.allocPage pmm).2 = frameAddr f) : ¬ held pmm f ∧ held (A.allocPage pmm).1 f := by
  rcases h.alloc pmm with ⟨hzero, -⟩ | ⟨g, -, hg, hfree, hres', hheld⟩
  · rw [hres, frameAddr_eq_zero_iff hf] at hzero
    omega
  · have hsame : f = g := by
      rw [← frameOf_frameAddr hf, ← hres, hres', frameOf_frameAddr hg]
    rw [hsame]
    exact ⟨hfree, (hheld g).mpr (Or.inl rfl)⟩

end PageSource.Lawful

namespace ArmLoad

variable {σ : Type} {A : PageSource σ} {held : σ → Nat → Prop} {image : ElfImage} {slot i f : Nat}
  {s t : ArmLoad σ} {phdr : Elf32Phdr} {flags : Word} {va : Nat}

/-- A page that is in use and none of the tables of the space. -/
structure Leaked (held : σ → Nat → Prop) (slot f : Nat) (s : ArmLoad σ) : Prop where
  held : held s.vmm.pmm f
  entries : UserEntries (· ≠ f) s.vmm slot

theorem Leaked.congr (h : Leaked held slot f s) (hl1 : t.vmm.l1 = s.vmm.l1)
    (hpmm : t.vmm.pmm = s.vmm.pmm) : Leaked held slot f t := by
  refine ⟨hpmm ▸ h.held, fun i hi => ?_⟩
  rw [hl1]
  exact h.entries i hi

theorem Leaked.takePage (hA : A.Lawful held) (h : Leaked held slot f s) (hpage : UserPage flags va) :
    Leaked held slot f (s.takePage A slot flags va).1 := by
  rcases takePage_cases hA.aligned h.entries hpage with ⟨-, hrun⟩ | ⟨g, hpos, hg, hres, hcases⟩
  · rw [hrun]
    exact ⟨hA.mono h.held, h.entries⟩
  · have hne : f ≠ g := by
      rintro rfl
      exact (hA.fresh hpos hg hres).1 h.held
    rcases hcases with ⟨-, -, hrun⟩ | ⟨u, hrun, -, -, ⟨-, hpmm, hl1⟩ |
      ⟨-, k, hkpos, hk, hres', hpmm, hl1⟩⟩
    · rw [hrun]
      exact ⟨(hA.free _ g f hg).mpr ⟨hA.mono (hA.mono h.held), hne⟩, h.entries⟩
    · rw [hrun]
      refine ⟨hpmm ▸ hA.mono h.held, fun i hi => ?_⟩
      rw [hl1]
      exact h.entries i hi
    · rw [hrun]
      refine ⟨hpmm ▸ hA.mono (hA.mono h.held), fun i hi => ?_⟩
      rw [hl1]
      split_ifs
      · refine Or.inr ⟨k, hk, ?_, rfl⟩
        rintro rfl
        exact (hA.fresh hkpos hk hres').1 (hA.mono h.held)
      · exact h.entries i hi

theorem Leaked.loadPage (h : Leaked held slot f
      (s.takePage A slot (segmentFlagsToHal phdr.pFlags) va).1) :
    Leaked held slot f (s.loadPage A image slot phdr va).1 := by
  unfold ArmLoad.loadPage
  cases hres : s.takePage A slot (segmentFlagsToHal phdr.pFlags) va with
  | mk t page =>
    rw [hres] at h
    cases page with
    | none => exact h
    | some pagePa =>
      obtain ⟨hl1, -, hpmm⟩ := copyPage_vmm image phdr t va pagePa
      exact h.congr hl1 hpmm

theorem Leaked.stackPage (h : Leaked held slot f (s.takePage A slot halPageUserData va).1) :
    Leaked held slot f (s.stackPage A slot va).1 := by
  unfold ArmLoad.stackPage
  cases hres : s.takePage A slot halPageUserData va with
  | mk t page =>
    rw [hres] at h
    cases page <;> exact h

theorem Leaked.loadSegment (hA : A.Lawful held) (h : Leaked held slot f s)
    (haccept : SegmentAccepted phdr image.size) (hmemsz : phdr.pMemsz < 4294967296) :
    Leaked held slot f (s.loadSegment A image slot phdr).1 :=
  forEach_invariant
    (fun _ _ hva hs => (hs.takePage hA (segment_userPage haccept hmemsz hva)).loadPage) h

theorem Leaked.allocateUserStack (hA : A.Lawful held) (h : Leaked held slot f s) :
    Leaked held slot f (s.allocateUserStack A slot).1 :=
  forEach_invariant (fun _ _ hva hs => (hs.takePage hA (stack_userPage hva)).stackPage) h

/-- Giving the space up does not give the page back. -/
theorem Leaked.destroySpace (hA : A.Lawful held) (h : Leaked held slot f s) :
    Leaked held slot f (s.destroySpace A slot) := by
  by_cases hslot : armVmmMaxSpaces ≤ slot
  · have hsame : s.vmm.halMmuDestroySpace A (some slot) = s.vmm := if_pos hslot
    exact h.congr (congrArg ArmVmm.l1 hsame) (congrArg ArmVmm.pmm hsame)
  · have hdestroy : s.vmm.halMmuDestroySpace A (some slot) =
        { s.vmm with
          pmm := ArmVmm.freeTables A (s.vmm.l1 slot) s.vmm.pmm (List.range 3072)
          used := Function.update s.vmm.used slot false } := if_neg hslot
    have hfree : held (ArmVmm.freeTables A (s.vmm.l1 slot) s.vmm.pmm (List.range 3072)) f := by
      apply ArmVmm.held_freeTables hA _ h.held
      intro j hj
      rcases h.entries j (List.mem_range.mp hj) with hfault | ⟨g, hg, hne, hentry⟩
      · exact Or.inl hfault
      · exact Or.inr ⟨g, hg, hne, hentry⟩
    generalize ArmVmm.freeTables A (s.vmm.l1 slot) s.vmm.pmm (List.range 3072) = pmm at hfree hdestroy
    unfold ArmLoad.destroySpace
    rw [hdestroy]
    exact ⟨hfree, h.entries⟩

theorem Leaked.loadHeaders (hA : A.Lawful held) (h : Leaked held slot f s) (entries : List Nat) :
    Leaked held slot f (forEach (loadHeader A image slot) entries s).1 := by
  apply forEach_invariant _ h
  intro s i _ hs
  have hread : Leaked held slot f (s.readPhdr image i) := hs.congr rfl rfl
  rcases loadHeader_cases A image slot i s with ⟨-, hstep⟩ | ⟨-, hstep⟩ | ⟨hval, hstep⟩
  · rw [hstep]
    exact hread.destroySpace hA
  · rw [hstep]
    exact hread
  · have hload := hread.loadSegment hA (validateSegment_eq_zero hval) (image.phdr_lt i).2.2.2
    cases hres : (s.readPhdr image i).loadSegment A image slot (image.phdr i) with
    | mk t ok =>
      rw [hres] at hload
      rw [hstep t ok hres]
      cases ok with
      | false => exact hload.destroySpace hA
      | true => exact hload

/-- Less memory than a page and its table need. -/
def LowMemory (p : ArmPmm) : Prop := p.freePages = 0 ∨ p.freePages = 1 ∧ p.bitmap 0 = true

/-- A space without tables. -/
def Empty (slot : Nat) (s : ArmLoad σ) : Prop := UserEntries (fun _ => False) s.vmm slot

theorem Empty.fault (h : Empty slot s) (hi : i < 3072) : s.vmm.l1 slot i = armL1TypeFault := by
  rcases h i hi with hfault | ⟨f, -, hfalse, -⟩
  · exact hfault
  · exact hfalse.elim

theorem Empty.entries (h : Empty slot s) (P : Nat → Prop) : UserEntries P s.vmm slot :=
  fun _ hi => Or.inl (h.fault hi)

theorem bit_of_full {p : ArmPmm} (h : p.freePages = 0) (hf : f < p.totalPages) : p.bitmap f = true := by
  rw [p.counted, clearBits, List.countP_eq_zero] at h
  simpa using h f (List.mem_range.mpr hf)

/-- The counter after an allocation that finds a page. -/
theorem freePages_of_clear {p : ArmPmm} (hf : f < p.totalPages ∧ p.bitmap f = false) :
    p.freePages ≠ 0 := by
  intro hfull
  have hset := bit_of_full hfull hf.1
  rw [hf.2] at hset
  cases hset

/-- Giving back the page just taken restores the allocator. -/
theorem freePage_take {p : ArmPmm} (hf : f < p.totalPages ∧ p.bitmap f = false) :
    ((p.take f hf).freePage (frameAddr f)).bitmap = p.bitmap ∧
      ((p.take f hf).freePage (frameAddr f)).freePages = p.freePages := by
  have hlt : f < 1048576 := hf.1.trans p.totalPages_lt
  have hheld : f < (p.take f hf).totalPages ∧ (p.take f hf).bitmap f = true :=
    (ArmPmm.held_take hf f).mpr (Or.inl rfl)
  have hne := freePages_of_clear hf
  unfold ArmPmm.freePage
  rw [frameOf_frameAddr hlt, frameAddr_toNat hlt, Nat.mul_mod_left, if_neg (by simp), dif_pos hheld]
  constructor
  · simp [ArmPmm.giveBack, ArmPmm.take, ← hf.2]
  · simp only [ArmPmm.giveBack, ArmPmm.take]
    omega

/-- With little memory the first page of a space is given back; otherwise a page stays in use. -/
theorem takePage_first {s : ArmLoad ArmPmm} (hs : Empty slot s) (hpage : UserPage flags va) :
    (LowMemory s.vmm.pmm ∧ ∃ t, s.takePage ArmPmm.source slot flags va = (t, none) ∧
        t.vmm.pmm.bitmap = s.vmm.pmm.bitmap ∧ t.vmm.pmm.freePages = s.vmm.pmm.freePages ∧
        t.vmm.l1 = s.vmm.l1 ∧ t.vmm.used = s.vmm.used) ∨
      (¬ LowMemory s.vmm.pmm ∧ ∃ f, s.vmm.pmm.bitmap f = false ∧
        Leaked ArmPmm.Held slot f (s.takePage ArmPmm.source slot flags va).1) := by
  have hcases := takePage_cases ArmPmm.lawful.aligned hs hpage
  simp only [ArmPmm.source_allocPage, ArmPmm.source_freePage] at hcases
  rcases ArmPmm.allocPage_cases s.vmm.pmm with ⟨hfull, halloc⟩ | ⟨f, hf, halloc⟩
  · -- No page is free.
    rw [halloc] at hcases
    rcases hcases with ⟨-, hrun⟩ | ⟨f, hpos, hlt, hres, -⟩
    · exact Or.inl ⟨Or.inl hfull, _, hrun, rfl, rfl, rfl, rfl⟩
    · rw [eq_comm, frameAddr_eq_zero_iff hlt] at hres
      omega
  · have hlt : f < 1048576 := hf.1.trans s.vmm.pmm.totalPages_lt
    have hne := freePages_of_clear hf
    rw [halloc] at hcases
    simp only at hcases
    rcases hcases with ⟨hzero, hrun⟩ | ⟨f', hpos, hlt', hres, hcases⟩
    · -- Page 0 is taken, and its address is read as a failure.
      obtain rfl := (frameAddr_eq_zero_iff hlt).mp hzero
      right
      refine ⟨?_, 0, hf.2, ?_⟩
      · rintro (hfull | ⟨-, hset⟩)
        · exact hne hfull
        · rw [hf.2] at hset
          cases hset
      · rw [hrun]
        exact ⟨(ArmPmm.held_take hf 0).mpr (Or.inl rfl), hs.entries _⟩
    · obtain rfl : f = f' := by
        rw [← frameOf_frameAddr hlt, hres, frameOf_frameAddr hlt']
      rcases ArmPmm.allocPage_cases (s.vmm.pmm.take f hf) with ⟨hfull, halloc'⟩ | ⟨g, hg, halloc'⟩
      · -- There is no page for the table.
        rw [halloc'] at hcases
        have hone : s.vmm.pmm.freePages = 1 := by
          change s.vmm.pmm.freePages - 1 = 0 at hfull
          omega
        have hzero : s.vmm.pmm.bitmap 0 = true := by
          have hset := bit_of_full (f := 0) hfull (hpos.trans hf.1)
          rwa [ArmPmm.take_bitmap_of_ne hf (Nat.ne_of_lt hpos)] at hset
        rcases hcases with ⟨-, -, hrun⟩ | ⟨t, -, -, -, ⟨htable, -⟩ | ⟨-, g, hgpos, hg, hres', -⟩⟩
        · exact Or.inl ⟨Or.inr ⟨hone, hzero⟩, _, hrun, (freePage_take hf).1, (freePage_take hf).2,
            rfl, rfl⟩
        · exact absurd (hs.fault hpage.index) htable
        · rw [eq_comm, frameAddr_eq_zero_iff hg] at hres'
          omega
      · have hglt : g < 1048576 := hg.1.trans (ArmPmm.totalPages_lt _)
        rw [halloc'] at hcases
        simp only at hcases
        right
        have hmany : 1 < s.vmm.pmm.freePages := by
          have hne' := freePages_of_clear hg
          change s.vmm.pmm.freePages - 1 ≠ 0 at hne'
          omega
        refine ⟨?_, ?_⟩
        · rintro (hnone | ⟨hone, -⟩) <;> omega
        rcases hcases with ⟨-, hzero, hrun⟩ | ⟨t, hrun, -, -, ⟨htable, -⟩ |
          ⟨-, g', hgpos, hglt', hres', hpmm, hl1⟩⟩
        · -- Page 0 is taken for the table.
          obtain rfl := (frameAddr_eq_zero_iff hglt).mp hzero
          have hclear : s.vmm.pmm.bitmap 0 = false := by
            have hset := hg.2
            rwa [ArmPmm.take_bitmap_of_ne hf (Nat.ne_of_lt hpos)] at hset
          refine ⟨0, hclear, ?_⟩
          rw [hrun]
          refine ⟨(ArmPmm.held_freePage _ hlt 0).mpr ⟨?_, Nat.ne_of_lt hpos⟩, hs.entries _⟩
          exact (ArmPmm.held_take hg 0).mpr (Or.inl rfl)
        · exact absurd (hs.fault hpage.index) htable
        · obtain rfl : g = g' := by
            rw [← frameOf_frameAddr hglt, hres', frameOf_frameAddr hglt']
          have hfresh : g ≠ f := by
            rintro rfl
            have hset := hg.2
            simp [ArmPmm.take] at hset
          refine ⟨f, hf.2, ?_⟩
          rw [hrun]
          refine ⟨?_, fun i hi => ?_⟩
          · rw [hpmm]
            exact (ArmPmm.held_take hg f).mpr (Or.inr ((ArmPmm.held_take hf f).mpr (Or.inl rfl)))
          · rw [hl1]
            split_ifs
            · exact Or.inr ⟨g, hglt, hfresh, rfl⟩
            · exact Or.inl (hs.fault hi)

/-- What a part of a load that takes a first page does: with little memory it fails and gives the page
back; otherwise a page stays in use. -/
def FirstTaken (slot : Nat) (s : ArmLoad ArmPmm) (result : ArmLoad ArmPmm × Bool) : Prop :=
  (LowMemory s.vmm.pmm ∧ result.2 = false ∧ result.1.vmm.pmm.bitmap = s.vmm.pmm.bitmap ∧
      result.1.vmm.pmm.freePages = s.vmm.pmm.freePages ∧ result.1.vmm.l1 = s.vmm.l1 ∧
      result.1.vmm.used = s.vmm.used) ∨
    (¬ LowMemory s.vmm.pmm ∧ ∃ f, s.vmm.pmm.bitmap f = false ∧
      Leaked ArmPmm.Held slot f result.1)

/-- A loop over pages takes a first page. -/
theorem forEach_first {s : ArmLoad ArmPmm} {body : ArmLoad ArmPmm → Nat → ArmLoad ArmPmm × Bool}
    {rest : List Nat} (hs : Empty slot s) (hpage : UserPage flags va)
    (hnone : ∀ t, s.takePage ArmPmm.source slot flags va = (t, none) → body s va = (t, false))
    (hfirst : ∀ f, Leaked ArmPmm.Held slot f (s.takePage ArmPmm.source slot flags va).1 →
      Leaked ArmPmm.Held slot f (body s va).1)
    (hrest : ∀ f t, ∀ va ∈ rest, Leaked ArmPmm.Held slot f t → Leaked ArmPmm.Held slot f (body t va).1) :
    FirstTaken slot s (forEach body (va :: rest) s) := by
  rw [forEach]
  rcases takePage_first hs hpage with ⟨hlow, t, htake, hbitmap, hfree, hl1, hused⟩ |
    ⟨hmany, f, hclear, hleak⟩
  · rw [hnone t htake]
    exact Or.inl ⟨hlow, rfl, hbitmap, hfree, hl1, hused⟩
  · have hbody := hfirst f hleak
    refine Or.inr ⟨hmany, f, hclear, ?_⟩
    cases hres : body s va with
    | mk t ok =>
      rw [hres] at hbody
      cases ok with
      | false => exact hbody
      | true => exact forEach_invariant (hrest f) hbody

theorem loadSegment_first {s : ArmLoad ArmPmm} (hs : Empty slot s)
    (haccept : SegmentAccepted phdr image.size) (hmemsz : phdr.pMemsz < 4294967296)
    (hpos : 0 < phdr.pMemsz) :
    FirstTaken slot s (s.loadSegment ArmPmm.source image slot phdr) := by
  have hpages : ∀ va ∈ segmentPages phdr, UserPage (segmentFlagsToHal phdr.pFlags) va :=
    fun _ hva => segment_userPage haccept hmemsz hva
  have hcount : SegmentAccepted.pageCount phdr ≠ 0 := by
    unfold SegmentAccepted.pageCount
    omega
  have hnonempty : segmentPages phdr ≠ [] := by
    rw [haccept.segmentPages_eq hmemsz]
    simpa using hcount
  obtain ⟨va, rest, heq⟩ := List.exists_cons_of_ne_nil hnonempty
  unfold ArmLoad.loadSegment
  rw [heq] at hpages ⊢
  apply forEach_first hs (hpages va List.mem_cons_self)
  · intro t htake
    unfold ArmLoad.loadPage
    rw [htake]
  · exact fun f hleak => hleak.loadPage
  · exact fun f t va hva ht =>
      (ht.takePage ArmPmm.lawful (hpages va (List.mem_cons_of_mem _ hva))).loadPage

theorem allocateUserStack_first {s : ArmLoad ArmPmm} (hs : Empty slot s) :
    FirstTaken slot s (s.allocateUserStack ArmPmm.source slot) := by
  have hpages : ∀ va ∈ stackPages, UserPage halPageUserData va := fun _ hva => stack_userPage hva
  have hnonempty : stackPages ≠ [] := by decide
  obtain ⟨va, rest, heq⟩ := List.exists_cons_of_ne_nil hnonempty
  unfold ArmLoad.allocateUserStack
  rw [heq] at hpages ⊢
  apply forEach_first hs (hpages va List.mem_cons_self)
  · intro t htake
    unfold ArmLoad.stackPage
    rw [htake]
  · exact fun f hleak => hleak.stackPage
  · exact fun f t va hva ht =>
      (ht.takePage ArmPmm.lawful (hpages va (List.mem_cons_of_mem _ hva))).stackPage

/-- A header that takes no page. -/
def Idle (image : ElfImage) (i : Nat) : Prop :=
  validateSegment (image.phdr i) image.size = 1 ∨
    validateSegment (image.phdr i) image.size = 0 ∧ (image.phdr i).pMemsz = 0

theorem Empty.congr {s t : ArmLoad σ} (h : Empty slot s) (hl1 : t.vmm.l1 = s.vmm.l1) :
    Empty slot t := by
  intro i hi
  rw [hl1]
  exact h i hi

theorem loadHeader_idle (h : Idle image i) (s : ArmLoad σ) :
    s.loadHeader A image slot i = (s.readPhdr image i, true) := by
  rcases loadHeader_cases A image slot i s with ⟨hval, -⟩ | ⟨-, hstep⟩ | ⟨hval, hstep⟩
  · rcases h with h | ⟨h, -⟩ <;> rw [hval] at h <;> exact absurd h (by decide)
  · exact hstep
  · have hzero : (image.phdr i).pMemsz = 0 := by
      rcases h with h | ⟨-, h⟩
      · rw [hval] at h
        exact absurd h (by decide)
      · exact h
    have hpages : segmentPages (image.phdr i) = [] := by
      rw [(validateSegment_eq_zero hval).segmentPages_eq (image.phdr_lt i).2.2.2,
        SegmentAccepted.pageCount, hzero]
      rfl
    have hload : (s.readPhdr image i).loadSegment A image slot (image.phdr i) =
        (s.readPhdr image i, true) := by
      unfold ArmLoad.loadSegment
      rw [hpages]
      rfl
    exact hstep _ _ hload

/-- Freeing the tables of a space without tables changes nothing. -/
theorem freeTables_fault {l1 : Nat → Word} {entries : List Nat} (pmm : σ)
    (h : ∀ i ∈ entries, l1 i = armL1TypeFault) : ArmVmm.freeTables A l1 pmm entries = pmm := by
  induction entries generalizing pmm with
  | nil => rfl
  | cons i entries ih =>
    have hi := h i List.mem_cons_self
    have hrest := ih pmm fun j hj => h j (List.mem_cons_of_mem i hj)
    unfold ArmVmm.freeTables at hrest ⊢
    rw [List.foldl_cons, hi, if_neg (by decide)]
    exact hrest

theorem destroySpace_empty (h : Empty slot s) (hslot : slot < armVmmMaxSpaces) :
    (s.destroySpace A slot).vmm.pmm = s.vmm.pmm ∧
      (s.destroySpace A slot).vmm.used = Function.update s.vmm.used slot false := by
  have hfree := freeTables_fault (A := A) s.vmm.pmm
    fun i hi => h.fault (List.mem_range.mp hi)
  have hdestroy : s.vmm.halMmuDestroySpace A (some slot) =
      { s.vmm with
        pmm := ArmVmm.freeTables A (s.vmm.l1 slot) s.vmm.pmm (List.range 3072)
        used := Function.update s.vmm.used slot false } := if_neg (not_le.mpr hslot)
  rw [hfree] at hdestroy
  unfold ArmLoad.destroySpace
  rw [hdestroy]
  exact ⟨rfl, rfl⟩

/-- The loop over the headers takes no page, gives up before the first page, or takes a first page. -/
theorem loadHeaders_first (image : ElfImage) {s : ArmLoad ArmPmm} {entries : List Nat} (hs : Empty slot s)
    (hsorted : entries.Pairwise (· < ·)) :
    ((∀ i ∈ entries, Idle image i) ∧
        ∃ t, forEach (loadHeader ArmPmm.source image slot) entries s = (t, true) ∧ t.vmm = s.vmm) ∨
      ((∃ i ∈ entries, validateSegment (image.phdr i) image.size = -1 ∧
          ∀ j ∈ entries, j < i → Idle image j) ∧
        ∃ t : ArmLoad ArmPmm, forEach (loadHeader ArmPmm.source image slot) entries s =
          (t.destroySpace ArmPmm.source slot, false) ∧ t.vmm = s.vmm) ∨
      ((∃ i ∈ entries, validateSegment (image.phdr i) image.size = 0 ∧
          0 < (image.phdr i).pMemsz ∧ ∀ j ∈ entries, j < i → Idle image j) ∧
        ((LowMemory s.vmm.pmm ∧
            ∃ t : ArmLoad ArmPmm, forEach (loadHeader ArmPmm.source image slot) entries s =
              (t.destroySpace ArmPmm.source slot, false) ∧
            t.vmm.pmm.bitmap = s.vmm.pmm.bitmap ∧ t.vmm.pmm.freePages = s.vmm.pmm.freePages ∧
            t.vmm.l1 = s.vmm.l1 ∧ t.vmm.used = s.vmm.used) ∨
          (¬ LowMemory s.vmm.pmm ∧ ∃ f, s.vmm.pmm.bitmap f = false ∧
            Leaked ArmPmm.Held slot f
              (forEach (loadHeader ArmPmm.source image slot) entries s).1))) := by
  induction entries generalizing s with
  | nil => exact Or.inl ⟨fun i hi => (List.not_mem_nil hi).elim, s, rfl, rfl⟩
  | cons i rest ih =>
    rw [List.pairwise_cons] at hsorted
    have hfirst : ∀ j ∈ i :: rest, ¬ j < i := by
      intro j hj
      rcases List.mem_cons.mp hj with rfl | hj
      · exact lt_irrefl _
      · exact not_lt.mpr (hsorted.1 j hj).le
    have hread : Empty slot (s.readPhdr image i) := hs.congr rfl
    by_cases hidle : Idle image i
    · -- The header does nothing, and the others decide.
      have hmore : ∀ k ∈ rest, (∀ j ∈ rest, j < k → Idle image j) →
          ∀ j ∈ i :: rest, j < k → Idle image j := by
        intro k _ hk j hj hlt
        rcases List.mem_cons.mp hj with rfl | hj
        · exact hidle
        · exact hk j hj hlt
      have hloop : forEach (loadHeader ArmPmm.source image slot) (i :: rest) s =
          forEach (loadHeader ArmPmm.source image slot) rest (s.readPhdr image i) := by
        rw [forEach, loadHeader_idle hidle]
      rw [hloop]
      rcases ih hread hsorted.2 with ⟨hall, hrun⟩ | ⟨⟨k, hk, hval, hearlier⟩, hrun⟩ |
        ⟨⟨k, hk, hval, hpos, hearlier⟩, hrun⟩
      · refine Or.inl ⟨fun j hj => ?_, hrun⟩
        rcases List.mem_cons.mp hj with rfl | hj
        · exact hidle
        · exact hall j hj
      · exact Or.inr (Or.inl ⟨⟨k, List.mem_cons_of_mem i hk, hval, hmore k hk hearlier⟩, hrun⟩)
      · exact Or.inr (Or.inr ⟨⟨k, List.mem_cons_of_mem i hk, hval, hpos, hmore k hk hearlier⟩, hrun⟩)
    · right
      rcases loadHeader_cases ArmPmm.source image slot i s with
        ⟨hval, hstep⟩ | ⟨hval, -⟩ | ⟨hval, hstep⟩
      · left
        refine ⟨⟨i, List.mem_cons_self, hval, fun j hj hlt => absurd hlt (hfirst j hj)⟩,
          s.readPhdr image i, ?_, rfl⟩
        rw [forEach, hstep]
      · exact absurd (Or.inl hval) hidle
      · right
        have hpos : 0 < (image.phdr i).pMemsz := by
          apply Nat.pos_of_ne_zero
          intro hzero
          exact hidle (Or.inr ⟨hval, hzero⟩)
        refine ⟨⟨i, List.mem_cons_self, hval, hpos, fun j hj hlt => absurd hlt (hfirst j hj)⟩, ?_⟩
        rw [forEach]
        cases hres : (s.readPhdr image i).loadSegment ArmPmm.source image slot (image.phdr i) with
        | mk t ok =>
          have hload := loadSegment_first hread (validateSegment_eq_zero hval)
            (image.phdr_lt i).2.2.2 hpos
          rw [hres] at hload
          rw [hstep t ok hres]
          rcases hload with ⟨hlow, hfail, hbitmap, hfree, hl1, hused⟩ | ⟨hmany, f, hclear, hleak⟩
          · left
            obtain rfl : ok = false := hfail
            exact ⟨hlow, t, rfl, hbitmap, hfree, hl1, hused⟩
          · refine Or.inr ⟨hmany, f, hclear, ?_⟩
            cases ok with
            | false => exact Leaked.destroySpace ArmPmm.lawful hleak
            | true => exact Leaked.loadHeaders ArmPmm.lawful hleak rest

/-- The pages, the counter of free pages and the slots are as before. -/
structure GivenBack (m m' : ArmVmm ArmPmm) : Prop where
  bitmap : m'.pmm.bitmap = m.pmm.bitmap
  freePages : m'.pmm.getFreePages = m.pmm.getFreePages
  slots : m'.used = m.used

/-- A failed load, and the destruction of the space of a load that succeeds, give everything back. -/
def LoadGivesBack (image : ElfImage) (m : ArmVmm ArmPmm) : Prop :=
  match armElfLoad ArmPmm.source image m with
  | (s, none) => GivenBack m s.vmm
  | (s, some result) =>
    GivenBack m (s.vmm.halMmuDestroySpace ArmPmm.source (some result.space))

theorem LoadGivesBack.of_success {m : ArmVmm ArmPmm} (h : LoadGivesBack image m)
    {s : ArmLoad ArmPmm} {result : ArmElfLoadResult}
    (hrun : armElfLoad ArmPmm.source image m = (s, some result)) :
    GivenBack m (s.vmm.halMmuDestroySpace ArmPmm.source (some result.space)) := by
  unfold LoadGivesBack at h
  rw [hrun] at h
  exact h

/-- A header is refused before one takes a page. -/
def RefusedFirst (image : ElfImage) : Prop :=
  ∃ i < image.ehdr.ePhnum, validateSegment (image.phdr i) image.size = -1 ∧
    ∀ j < i, Idle image j

/-- No page gets mapped: the image is refused before one, there is no slot, or too little memory. -/
def MapsNothing (image : ElfImage) (m : ArmVmm ArmPmm) : Prop :=
  image.size < elf32HeaderSize ∨ validateElfHeader image.ehdr image.size = false ∨
    (∀ slot < armVmmMaxSpaces, m.used slot = true) ∨ RefusedFirst image ∨ LowMemory m.pmm

/-- A space made in a free slot and destroyed without tables. -/
theorem givenBack_destroy {m : ArmVmm ArmPmm} {s : ArmLoad ArmPmm} (hslot : slot < armVmmMaxSpaces)
    (hfree : m.used slot = false) (hbitmap : s.vmm.pmm.bitmap = m.pmm.bitmap)
    (hpages : s.vmm.pmm.freePages = m.pmm.freePages) (hl1 : s.vmm.l1 = (m.withSpace slot).l1)
    (hused : s.vmm.used = (m.withSpace slot).used) :
    GivenBack m (s.destroySpace ArmPmm.source slot).vmm := by
  have hempty : Empty slot s := by
    intro i hi
    rw [hl1]
    exact Or.inl (ArmVmm.withSpace_fault m slot hi)
  obtain ⟨hpmm, hslots⟩ := destroySpace_empty (A := ArmPmm.source) hempty hslot
  refine ⟨hpmm ▸ hbitmap, hpmm ▸ hpages, ?_⟩
  rw [hslots, hused, ArmVmm.withSpace, Function.update_idem, ← hfree, Function.update_eq_self]

/-- A page that was free and stays in use is not given back. -/
theorem not_givenBack {m m' : ArmVmm ArmPmm} (hclear : m.pmm.bitmap f = false)
    (hheld : m'.pmm.Held f) : ¬ GivenBack m m' := by
  intro h
  have hset := hheld.2
  rw [h.bitmap, hclear] at hset
  cases hset

/-- A load with a valid header and a free slot. -/
theorem armElfLoad_eq {m m' : ArmVmm σ} (hsize : ¬ image.size < elf32HeaderSize)
    (hvalid : validateElfHeader image.ehdr image.size = true)
    (hcreate : m.halMmuCreateSpace = (m', some slot)) {t : ArmLoad σ} {ok : Bool}
    (hheaders : forEach (loadHeader A image slot) (List.range image.ehdr.ePhnum)
      ⟨m', [(0, elf32HeaderSize)], []⟩ = (t, ok)) :
    armElfLoad A image m =
      if ok then
        if (t.allocateUserStack A slot).2 then
          ((t.allocateUserStack A slot).1, some ⟨slot, image.ehdr.eEntry, userStackVirtTop⟩)
        else ((t.allocateUserStack A slot).1.destroySpace A slot, none)
      else (t, none) := by
  unfold armElfLoad
  rw [if_neg hsize, hvalid, if_neg (by simp), hcreate]
  dsimp only
  rw [hheaders]
  cases ok with
  | false => rfl
  | true =>
    dsimp only
    rw [if_pos rfl]
    cases hstack : t.allocateUserStack A slot with
    | mk u ok => cases ok <;> simp

/-- A page that was free and stays in use through the headers, or through the stack after them. -/
theorem not_loadGivesBack {m m' : ArmVmm ArmPmm} (hsize : ¬ image.size < elf32HeaderSize)
    (hvalid : validateElfHeader image.ehdr image.size = true)
    (hcreate : m.halMmuCreateSpace = (m', some slot)) {t : ArmLoad ArmPmm} {ok : Bool}
    (hheaders : forEach (loadHeader ArmPmm.source image slot) (List.range image.ehdr.ePhnum)
      ⟨m', [(0, elf32HeaderSize)], []⟩ = (t, ok))
    (hclear : m.pmm.bitmap f = false) (hfailed : ok = false → Leaked ArmPmm.Held slot f t)
    (hstack : ok = true → Leaked ArmPmm.Held slot f (t.allocateUserStack ArmPmm.source slot).1) :
    ¬ LoadGivesBack image m := by
  unfold LoadGivesBack
  rw [armElfLoad_eq hsize hvalid hcreate hheaders]
  cases ok with
  | false => exact not_givenBack hclear (hfailed rfl).held
  | true =>
    have hleak := ((hstack rfl).destroySpace ArmPmm.lawful).held
    rw [if_pos rfl]
    cases (t.allocateUserStack ArmPmm.source slot).2 <;> exact not_givenBack hclear hleak

/-- A load and the destruction of its space give everything back exactly when no page gets mapped. -/
theorem arm_elf_gives_back_iff (image : ElfImage) (m : ArmVmm ArmPmm) :
    LoadGivesBack image m ↔ MapsNothing image m := by
  unfold LoadGivesBack MapsNothing
  by_cases hsize : image.size < elf32HeaderSize
  · have hrun : armElfLoad ArmPmm.source image m = (⟨m, [], []⟩, none) := if_pos hsize
    rw [hrun]
    exact iff_of_true ⟨rfl, rfl, rfl⟩ (Or.inl hsize)
  cases hvalid : validateElfHeader image.ehdr image.size with
  | false =>
    have hrun : armElfLoad ArmPmm.source image m = (⟨m, [(0, elf32HeaderSize)], []⟩, none) := by
      unfold armElfLoad
      rw [if_neg hsize, hvalid]
      rfl
    rw [hrun]
    exact iff_of_true ⟨rfl, rfl, rfl⟩ (Or.inr (Or.inl rfl))
  | true =>
    cases hfind : (List.range armVmmMaxSpaces).find? fun i => !m.used i with
    | none =>
      have hrun : armElfLoad ArmPmm.source image m = (⟨m, [(0, elf32HeaderSize)], []⟩, none) := by
        unfold armElfLoad ArmVmm.halMmuCreateSpace
        rw [if_neg hsize, hvalid, hfind]
        rfl
      have hfull : ∀ slot < armVmmMaxSpaces, m.used slot = true := fun slot hslot => by
        simpa using List.find?_eq_none.mp hfind slot (List.mem_range.mpr hslot)
      rw [hrun]
      exact iff_of_true ⟨rfl, rfl, rfl⟩ (Or.inr (Or.inr (Or.inl hfull)))
    | some slot =>
      have hfree : m.used slot = false := by simpa using List.find?_some hfind
      have hslot : slot < armVmmMaxSpaces := List.mem_range.mp (List.mem_of_find?_eq_some hfind)
      have hcreate : m.halMmuCreateSpace = (m.withSpace slot, some slot) := by
        unfold ArmVmm.halMmuCreateSpace
        rw [hfind]
        rfl
      have hempty : Empty slot (⟨m.withSpace slot, [(0, elf32HeaderSize)], []⟩ : ArmLoad ArmPmm) :=
        fun i hi => Or.inl (ArmVmm.withSpace_fault m slot hi)
      -- Only the headers and the memory are left of the condition.
      have hcondition : (image.size < elf32HeaderSize ∨ true = false ∨
          (∀ slot < armVmmMaxSpaces, m.used slot = true) ∨ RefusedFirst image ∨ LowMemory m.pmm) ↔
          RefusedFirst image ∨ LowMemory m.pmm := by
        constructor
        · rintro (h | h | h | h)
          · exact absurd h hsize
          · cases h
          · have hused := h slot hslot
            rw [hfree] at hused
            cases hused
          · exact h
        · exact fun h => Or.inr (Or.inr (Or.inr h))
      rw [hcondition]
      -- A header that takes a page, or none that is refused, excludes a refusal before the first page.
      have hexclude : (∀ i < image.ehdr.ePhnum, validateSegment (image.phdr i) image.size = -1 →
          ∃ j < i, ¬ Idle image j) → ¬ RefusedFirst image := by
        rintro h ⟨i, hi, hval, hidle⟩
        obtain ⟨j, hj, hne⟩ := h i hi hval
        exact hne (hidle j hj)
      have hsub : ∀ i ∈ List.range image.ehdr.ePhnum, ∀ j < i, j ∈ List.range image.ehdr.ePhnum :=
        fun i hi j hj => List.mem_range.mpr (hj.trans (List.mem_range.mp hi))
      rcases loadHeaders_first image hempty List.pairwise_lt_range with
        ⟨hall, t, hrun, hvmm⟩ | ⟨⟨i, hi, hval, hearlier⟩, t, hrun, hvmm⟩ |
        ⟨⟨i, hi, hval, hpos, hearlier⟩, hfirst⟩
      · have hrefused : ¬ RefusedFirst image := by
          apply hexclude
          intro i hi hval
          rcases hall i (List.mem_range.mpr hi) with h | ⟨h, -⟩ <;> rw [hval] at h <;>
            exact absurd h (by decide)
        rcases allocateUserStack_first (hempty.congr (congrArg ArmVmm.l1 hvmm)) with
          ⟨hlow, hfail, hbitmap, hpages, hl1, hused⟩ | ⟨hmany, f, hclear, hleak⟩
        · rw [hvmm] at hlow hbitmap hpages hl1 hused
          rw [armElfLoad_eq hsize hvalid hcreate hrun, if_pos rfl, hfail, if_neg (by simp)]
          exact iff_of_true (givenBack_destroy hslot hfree hbitmap hpages hl1 hused) (Or.inr hlow)
        · rw [hvmm] at hmany hclear
          apply iff_of_false
          · exact not_loadGivesBack hsize hvalid hcreate hrun hclear (fun h => by cases h)
              fun _ => hleak
          · rintro (h | h)
            · exact hrefused h
            · exact hmany h
      · have hback := givenBack_destroy hslot hfree (congrArg (fun v => v.pmm.bitmap) hvmm)
          (congrArg (fun v => v.pmm.freePages) hvmm) (congrArg ArmVmm.l1 hvmm)
          (congrArg ArmVmm.used hvmm)
        rw [armElfLoad_eq hsize hvalid hcreate hrun]
        exact iff_of_true hback (Or.inl ⟨i, List.mem_range.mp hi, hval,
          fun j hj => hearlier j (hsub i hi j hj) hj⟩)
      · have hrefused : ¬ RefusedFirst image := by
          apply hexclude
          intro k hk hrefuse
          refine ⟨i, ?_, ?_⟩
          · -- An earlier refusal would be idle.
            by_contra hle
            rcases lt_or_eq_of_le (not_lt.mp hle) with hlt | rfl
            · rcases hearlier k (List.mem_range.mpr hk) hlt with h | ⟨h, -⟩ <;> rw [hrefuse] at h <;>
                exact absurd h (by decide)
            · rw [hval] at hrefuse
              exact absurd hrefuse (by decide)
          · rintro (h | ⟨-, h⟩)
            · rw [hval] at h
              exact absurd h (by decide)
            · omega
        rcases hfirst with ⟨hlow, t, hrun, hbitmap, hpages, hl1, hused⟩ | ⟨hmany, f, hclear, hleak⟩
        · rw [armElfLoad_eq hsize hvalid hcreate hrun]
          exact iff_of_true (givenBack_destroy hslot hfree hbitmap hpages hl1 hused) (Or.inr hlow)
        · apply iff_of_false
          · exact not_loadGivesBack hsize hvalid hcreate rfl hclear (fun _ => hleak)
              fun _ => hleak.allocateUserStack ArmPmm.lawful
          · rintro (h | h)
            · exact hrefused h
            · exact hmany h

/-- A program of one page. -/
def pageImage : ElfImage where
  bytes k := BitVec.ofNat 8 ([0x7F, 0x45, 0x4C, 0x46, 1, 1, 1, 0, 0, 0, 0, 0, 0, 0, 0, 0,
    2, 0, 40, 0, 1, 0, 0, 0, 0, 0x80, 0, 0, 52, 0, 0, 0, 0, 0, 0, 0, 0, 0, 0, 0,
    52, 0, 32, 0, 1, 0, 0, 0, 0, 0, 0, 0,
    1, 0, 0, 0, 0, 0, 0, 0, 0, 0x80, 0, 0, 0, 0, 0, 0, 84, 0, 0, 0, 0, 0x10, 0, 0,
    5, 0, 0, 0, 0, 0x10, 0, 0].getD k 0)
  size := 84
  fits := wrapImage.fits

/-- Its load with 64 free pages. -/
def pageLoad : ArmLoad ArmPmm × Option ArmElfLoadResult :=
  armElfLoad ArmPmm.source pageImage (emptyVmm (ArmPmm.init 0x140000))

/-- After the load and the destruction of the space 17 pages are missing. -/
theorem arm_elf_leaks :
    (ArmPmm.init 0x140000).getFreePages = 64 ∧ pageLoad.2.map ArmElfLoadResult.space = some 0 ∧
      (pageLoad.1.vmm.halMmuDestroySpace ArmPmm.source (some 0)).pmm.getFreePages = 47 ∧
      ¬ LoadGivesBack pageImage (emptyVmm (ArmPmm.init 0x140000)) := by
  have hbefore : (ArmPmm.init 0x140000).getFreePages = 64 := by decide +kernel
  have hload : pageLoad.2.map ArmElfLoadResult.space = some 0 := by decide +kernel
  have hafter : (pageLoad.1.vmm.halMmuDestroySpace ArmPmm.source (some 0)).pmm.getFreePages = 47 := by
    decide +kernel
  refine ⟨hbefore, hload, hafter, fun h => ?_⟩
  obtain ⟨result, hres, hspace⟩ := Option.map_eq_some_iff.mp hload
  have hrun : pageLoad = (pageLoad.1, some result) := Prod.ext rfl hres
  have hback : GivenBack (emptyVmm (ArmPmm.init 0x140000))
      (pageLoad.1.vmm.halMmuDestroySpace ArmPmm.source (some 0)) := hspace ▸ h.of_success hrun
  have hsame : (47 : Nat) = 64 := hafter.symm.trans (hback.freePages.trans hbefore)
  omega

end ArmLoad
end EnclaveOS
