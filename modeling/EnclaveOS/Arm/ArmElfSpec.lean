import EnclaveOS.Arm.ArmElf
import EnclaveOS.Arm.ArmVmmRuns

/-!
# ArmElfSpec - what the loader of the ARM kernel reads and maps

The bounds of the header table and of the segment data are checked with sums that wrap, so a table
or a segment that passes may lie outside of the image.  The loader never maps a page above user
space.
-/

namespace EnclaveOS

open PageWord ByteMemory

theorem ElfImage.phdr_lt (image : ElfImage) (i : Nat) :
    (image.phdr i).pOffset < 4294967296 ∧ (image.phdr i).pVaddr < 4294967296 ∧
      (image.phdr i).pFilesz < 4294967296 ∧ (image.phdr i).pMemsz < 4294967296 :=
  ⟨leField_lt _ 4 4, leField_lt _ 8 4, leField_lt _ 16 4, leField_lt _ 20 4⟩

/-- An accepted segment is readable, fits its place in user space and is not both writable and
executable; its end in the image is only compared after wrapping. -/
structure SegmentAccepted (phdr : Elf32Phdr) (elfSize : Nat) : Prop where
  load : phdr.pType = ptLoad
  wx : ¬ (hasFlag phdr.pFlags pfW ∧ hasFlag phdr.pFlags pfX)
  filesz : phdr.pFilesz ≤ phdr.pMemsz
  offset : wrap32 (phdr.pOffset + phdr.pFilesz) ≤ elfSize
  vaddr : phdr.pVaddr < kernelSpaceStart
  memEnd : phdr.memEnd ≤ userSpaceEnd
  ordered : phdr.pVaddr ≤ phdr.memEnd
  aligned : phdr.pVaddr % 4096 = 0

theorem validateSegment_eq_zero {phdr : Elf32Phdr} {elfSize : Nat}
    (h : validateSegment phdr elfSize = 0) : SegmentAccepted phdr elfSize := by
  unfold validateSegment at h
  split_ifs at h with h₁ h₂ h₃ h₄ h₅ h₆ h₇ h₈
  · exact absurd h (by decide)
  exact ⟨not_not.mp h₁, h₂, not_lt.mp h₄, not_lt.mp h₅, not_le.mp h₆,
    not_lt.mp fun h => h₇ (Or.inl h), not_lt.mp fun h => h₇ (Or.inr h), not_not.mp h₈⟩

theorem validateSegment_cases (phdr : Elf32Phdr) (elfSize : Nat) :
    validateSegment phdr elfSize = -1 ∨ validateSegment phdr elfSize = 0 ∨
      validateSegment phdr elfSize = 1 := by
  unfold validateSegment
  split_ifs <;> simp

/-- The bytes of a program header up to the last field that is read. -/
def headerExtent (phdr : Elf32Phdr) : Nat := if phdr.pType = ptLoad then 28 else 4

theorem segmentFields_le (phdr : Elf32Phdr) (elfSize : Nat) :
    ∀ f ∈ segmentFields phdr elfSize, f + 4 ≤ headerExtent phdr := by
  unfold segmentFields headerExtent
  by_cases hload : phdr.pType = ptLoad
  · rw [if_neg (not_not.mpr hload), if_pos hload]
    split_ifs <;> decide
  · rw [if_pos hload, if_neg hload]
    decide

/-- The last of these bytes is read. -/
theorem exists_segmentFields (phdr : Elf32Phdr) (elfSize : Nat) :
    ∃ f ∈ segmentFields phdr elfSize, f + 4 = headerExtent phdr := by
  unfold segmentFields headerExtent
  by_cases hload : phdr.pType = ptLoad
  · refine ⟨24, ?_, if_pos hload ▸ rfl⟩
    rw [if_neg (not_not.mpr hload)]
    split_ifs <;> decide
  · refine ⟨0, ?_, if_neg hload ▸ rfl⟩
    rw [if_pos hload]
    decide

namespace SegmentAccepted

variable {phdr : Elf32Phdr} {elfSize : Nat}

/-- The end of an accepted segment does not wrap. -/
theorem memEnd_eq (h : SegmentAccepted phdr elfSize) (hmemsz : phdr.pMemsz < 4294967296) :
    phdr.memEnd = phdr.pVaddr + phdr.pMemsz := by
  have hordered := h.ordered
  have hvaddr := h.vaddr
  unfold Elf32Phdr.memEnd wrap32 kernelSpaceStart at *
  omega

/-- The number of pages of an accepted segment. -/
def pageCount (phdr : Elf32Phdr) : Nat := (phdr.pMemsz + 0xFFF) / 4096

theorem segmentPages_eq (h : SegmentAccepted phdr elfSize) (hmemsz : phdr.pMemsz < 4294967296) :
    ArmLoad.segmentPages phdr =
      (List.range (pageCount phdr)).map fun n => phdr.pVaddr + n * 4096 := by
  have hend := h.memEnd_eq hmemsz
  have hbound := h.memEnd
  have haligned := h.aligned
  rw [hend] at hbound
  unfold userSpaceEnd at hbound
  unfold ArmLoad.segmentPages pageCount
  simp only
  rw [hend, pageDown_eq_self haligned, pageUp_eq (by omega)]
  unfold pageDown
  split_ifs with hempty
  · rw [show (phdr.pMemsz + 0xFFF) / 4096 = 0 by omega]
    rfl
  · have hcount : (phdr.pVaddr + phdr.pMemsz + 0xFFF -
        (phdr.pVaddr + phdr.pMemsz + 0xFFF) % 4096 - phdr.pVaddr) / 0x1000 =
        (phdr.pMemsz + 0xFFF) / 4096 := by omega
    rw [hcount]
    apply List.map_congr_left
    intro n hn
    rw [List.mem_range] at hn
    unfold wrap32
    omega

end SegmentAccepted

namespace ArmLoad

variable {σ : Type} {A : PageSource σ} {image : ElfImage} {slot : Nat} {s s' : ArmLoad σ}
  {phdr : Elf32Phdr} {i : Nat}

/-- A call that maps a page has an aligned address in user space. -/
theorem map_user {m : ArmVmm σ} {space : Option Nat} {virt : Nat} {phys flags : Word}
    (h : ¬ (m.halMmuMapPageInSpace A space virt phys flags).2 < 0) :
    virt % 4096 = 0 ∧ l1Index virt < 3072 := by
  have hneg : (-1 : Int) < 0 := by decide
  cases space with
  | none => exact absurd hneg h
  | some slot =>
    by_cases halign : virt % 4096 = 0
    · refine ⟨halign, ?_⟩
      by_contra hvirt
      apply h
      unfold ArmVmm.halMmuMapPageInSpace
      simp only [halign, Nat.not_lt.mp hvirt, if_true, ne_eq, not_true_eq_false, if_false]
      split_ifs <;> exact hneg
    · exact absurd (by simp [ArmVmm.halMmuMapPageInSpace, halign]) h

/-- Taking a page reads nothing of the image and maps at most this page, in user space. -/
theorem takePage_trace (A : PageSource σ) (slot : Nat) (flags : Word) (s : ArmLoad σ) (pageVa : Nat) :
    (s.takePage A slot flags pageVa).1.reads = s.reads ∧
      ((s.takePage A slot flags pageVa).1.mapped = s.mapped ∨
        (s.takePage A slot flags pageVa).1.mapped = pageVa :: s.mapped ∧
          pageVa + 4096 ≤ kernelSpaceStart) := by
  unfold takePage
  dsimp only
  split_ifs with hzero hfail
  · exact ⟨rfl, Or.inl rfl⟩
  · exact ⟨rfl, Or.inl rfl⟩
  · obtain ⟨haligned, hindex⟩ := map_user hfail
    refine ⟨rfl, Or.inr ⟨rfl, ?_⟩⟩
    unfold l1Index at hindex
    unfold kernelSpaceStart
    omega

theorem copyPage_mapped (s : ArmLoad σ) (pageVa : Nat) (pagePa : Word) :
    (s.copyPage image phdr pageVa pagePa).mapped = s.mapped := by
  unfold copyPage
  dsimp only
  split_ifs <;> rfl

/-- The page number `n` of a segment is copied from the range of the image it stands for, up to
the wrapping of the offset. -/
theorem copyPage_eq (h : SegmentAccepted phdr image.size) (hmemsz : phdr.pMemsz < 4294967296)
    {n : Nat} (hn : n < SegmentAccepted.pageCount phdr) (s : ArmLoad σ) (pagePa : Word) :
    s.copyPage image phdr (phdr.pVaddr + n * 4096) pagePa =
      if n * 4096 < phdr.pFilesz then
        { s with
          vmm := { s.vmm with
            mem := copyImage image s.vmm.mem pagePa.toNat (wrap32 (phdr.pOffset + n * 4096))
              (min 4096 (phdr.pFilesz - n * 4096)) }
          reads := (wrap32 (phdr.pOffset + n * 4096), min 4096 (phdr.pFilesz - n * 4096)) :: s.reads }
      else s := by
  have hbound := h.memEnd
  have hfilesz := h.filesz
  rw [h.memEnd_eq hmemsz] at hbound
  unfold userSpaceEnd at hbound
  unfold SegmentAccepted.pageCount at hn
  have hdata : wrap32 (phdr.pVaddr + phdr.pFilesz) = phdr.pVaddr + phdr.pFilesz := by
    unfold wrap32
    omega
  have hpage : wrap32 (phdr.pVaddr + n * 4096 + 0x1000) = phdr.pVaddr + n * 4096 + 4096 := by
    unfold wrap32
    omega
  have hstart : (if phdr.pVaddr < phdr.pVaddr + n * 4096 then phdr.pVaddr + n * 4096
      else phdr.pVaddr) = phdr.pVaddr + n * 4096 := by
    split_ifs <;> omega
  have hend : (if phdr.pVaddr + n * 4096 + 4096 < phdr.pVaddr + phdr.pFilesz then
      phdr.pVaddr + n * 4096 + 4096 else phdr.pVaddr + phdr.pFilesz) =
      phdr.pVaddr + min (n * 4096 + 4096) phdr.pFilesz := by
    split_ifs <;> omega
  unfold copyPage
  dsimp only
  rw [hdata, hpage, hstart, hend]
  by_cases hcopy : n * 4096 < phdr.pFilesz
  · rw [if_pos (by omega), if_pos hcopy, Nat.sub_self, Nat.add_zero, Nat.add_sub_cancel_left,
      show phdr.pVaddr + min (n * 4096 + 4096) phdr.pFilesz - (phdr.pVaddr + n * 4096) =
        min 4096 (phdr.pFilesz - n * 4096) by omega]
  · rw [if_neg (by omega), if_neg hcopy]

theorem copyPage_reads (h : SegmentAccepted phdr image.size) (hmemsz : phdr.pMemsz < 4294967296)
    {n : Nat} (hn : n < SegmentAccepted.pageCount phdr) (s : ArmLoad σ) (pagePa : Word) :
    (s.copyPage image phdr (phdr.pVaddr + n * 4096) pagePa).reads =
      if n * 4096 < phdr.pFilesz then
        (wrap32 (phdr.pOffset + n * 4096), min 4096 (phdr.pFilesz - n * 4096)) :: s.reads
      else s.reads := by
  rw [copyPage_eq h hmemsz hn, apply_ite ArmLoad.reads]

/-- What every round keeps holds after the loop. -/
theorem forEach_invariant {P : ArmLoad σ → Prop} {body : ArmLoad σ → Nat → ArmLoad σ × Bool}
    {pages : List Nat} (hbody : ∀ s, ∀ va ∈ pages, P s → P (body s va).1) (hs : P s) :
    P (forEach body pages s).1 := by
  induction pages generalizing s with
  | nil => exact hs
  | cons va pages ih =>
    have hround := hbody s va List.mem_cons_self hs
    rw [forEach]
    cases hres : body s va with
    | mk t ok =>
      rw [hres] at hround
      cases ok with
      | false => exact hround
      | true => exact ih (fun s va hva => hbody s va (List.mem_cons_of_mem _ hva)) hround

/-- A loop whose rounds succeed goes over all pages, and keeps what each of them reads. -/
theorem forEach_all {P : ArmLoad σ → Prop} {body : ArmLoad σ → Nat → ArmLoad σ × Bool}
    {pages : List Nat}
    (hbody : ∀ s, ∀ va ∈ pages, P s →
      (body s va).2 = true ∧ P (body s va).1 ∧ s.reads ⊆ (body s va).1.reads)
    (hs : P s) :
    (forEach body pages s).2 = true ∧ P (forEach body pages s).1 ∧
      s.reads ⊆ (forEach body pages s).1.reads ∧
      ∀ va ∈ pages, ∃ t, P t ∧ (body t va).1.reads ⊆ (forEach body pages s).1.reads := by
  induction pages generalizing s with
  | nil => exact ⟨rfl, hs, List.Subset.refl _, fun va hva => by cases hva⟩
  | cons va pages ih =>
    obtain ⟨hok, hP, hreads⟩ := hbody s va List.mem_cons_self hs
    have hloop : forEach body (va :: pages) s = forEach body pages (body s va).1 := by
      rw [forEach]
      cases hres : body s va with
      | mk t ok =>
        rw [hres] at hok
        simp only at hok
        rw [hok]
    obtain ⟨hdone, hend, hmore, hall⟩ :=
      ih (fun s va hva => hbody s va (List.mem_cons_of_mem _ hva)) hP
    rw [hloop]
    refine ⟨hdone, hend, List.Subset.trans hreads hmore, fun va' hva' => ?_⟩
    rcases List.mem_cons.mp hva' with rfl | hva'
    · exact ⟨s, hs, hmore⟩
    · exact hall va' hva'

/-- The bytes read lie in the image, and the pages mapped in user space. -/
structure Confined (image : ElfImage) (s : ArmLoad σ) : Prop where
  reads : ∀ r ∈ s.reads, ∀ k < r.2, r.1 + k < image.size
  mapped : ∀ va ∈ s.mapped, va + 4096 ≤ kernelSpaceStart

theorem Confined.of_trace (h : Confined image s) (hreads : s'.reads = s.reads)
    (hmapped : s'.mapped = s.mapped) : Confined image s' :=
  ⟨hreads ▸ h.reads, hmapped ▸ h.mapped⟩

theorem Confined.takePage (h : Confined image s) (A : PageSource σ) (slot : Nat) (flags : Word)
    (pageVa : Nat) : Confined image (s.takePage A slot flags pageVa).1 := by
  obtain ⟨hreads, hmapped⟩ := takePage_trace A slot flags s pageVa
  refine ⟨hreads ▸ h.reads, ?_⟩
  rcases hmapped with hmapped | ⟨hmapped, huser⟩
  · rw [hmapped]
    exact h.mapped
  · rw [hmapped]
    intro va hva
    rcases List.mem_cons.mp hva with rfl | hva
    · exact huser
    · exact h.mapped va hva

/-- The data of an accepted segment is in the image when its end does not wrap. -/
theorem Confined.loadSegment (h : Confined image s) (A : PageSource σ) (slot : Nat)
    (haccept : SegmentAccepted phdr image.size)
    (hmemsz : phdr.pMemsz < 4294967296) (hwrap : phdr.pOffset + phdr.pFilesz < 4294967296) :
    Confined image (s.loadSegment A image slot phdr).1 := by
  apply forEach_invariant _ h
  intro s va hva hs
  have htake := hs.takePage A slot (segmentFlagsToHal phdr.pFlags) va
  unfold loadPage
  cases hres : s.takePage A slot (segmentFlagsToHal phdr.pFlags) va with
  | mk t page =>
    rw [hres] at htake
    cases page with
    | none => exact htake
    | some pagePa =>
      refine ⟨?_, ?mapped⟩
      case mapped =>
        rw [copyPage_mapped]
        exact htake.mapped
      rw [haccept.segmentPages_eq hmemsz] at hva
      obtain ⟨n, hn, rfl⟩ := List.mem_map.mp hva
      dsimp only
      rw [copyPage_reads haccept hmemsz (List.mem_range.mp hn)]
      split_ifs with hcopy
      · intro r hr k hk
        rcases List.mem_cons.mp hr with rfl | hr
        · have hoffset := haccept.offset
          unfold wrap32 at *
          simp only at hk ⊢
          omega
        · exact htake.reads r hr k hk
      · exact htake.reads

theorem Confined.allocateUserStack (h : Confined image s) (A : PageSource σ) (slot : Nat) :
    Confined image (s.allocateUserStack A slot).1 := by
  apply forEach_invariant _ h
  intro s va _ hs
  have htake := hs.takePage A slot halPageUserData va
  unfold stackPage
  cases hres : s.takePage A slot halPageUserData va with
  | mk t page =>
    rw [hres] at htake
    cases page <;> exact htake

/-- A program header that is read inside the image, with a segment whose data does not wrap. -/
def HeaderInside (image : ElfImage) (i : Nat) : Prop :=
  image.phdrOffset i + headerExtent (image.phdr i) ≤ image.size ∧
    (validateSegment (image.phdr i) image.size = 0 →
      (image.phdr i).pOffset + (image.phdr i).pFilesz < 4294967296)

theorem Confined.readPhdr (h : Confined image s)
    (hinside : image.phdrOffset i + headerExtent (image.phdr i) ≤ image.size) :
    Confined image (s.readPhdr image i) := by
  refine ⟨?_, h.mapped⟩
  intro r hr k hk
  rcases List.mem_append.mp hr with hr | hr
  · obtain ⟨f, hf, rfl⟩ := List.mem_map.mp hr
    have hextent := segmentFields_le _ _ f hf
    simp only at hk ⊢
    omega
  · exact h.reads r hr k hk

/-- The three ways of a header: refused, skipped, loaded. -/
theorem loadHeader_cases (A : PageSource σ) (image : ElfImage) (slot i : Nat) (s : ArmLoad σ) :
    (validateSegment (image.phdr i) image.size = -1 ∧
        s.loadHeader A image slot i = ((s.readPhdr image i).destroySpace A slot, false)) ∨
      (validateSegment (image.phdr i) image.size = 1 ∧
        s.loadHeader A image slot i = (s.readPhdr image i, true)) ∨
      (validateSegment (image.phdr i) image.size = 0 ∧
        ∀ t ok, (s.readPhdr image i).loadSegment A image slot (image.phdr i) = (t, ok) →
          s.loadHeader A image slot i = (if ok then t else t.destroySpace A slot, ok)) := by
  rcases validateSegment_cases (image.phdr i) image.size with hval | hval | hval
  · left
    refine ⟨hval, ?_⟩
    rw [loadHeader, hval]
    simp
  · right
    right
    refine ⟨hval, fun t ok hload => ?_⟩
    rw [loadHeader, hval, hload]
    cases ok <;> simp
  · right
    left
    refine ⟨hval, ?_⟩
    rw [loadHeader, hval]
    simp

/-- The loop over the headers, when each header reached is inside. -/
theorem Confined.loadHeaders {entries : List Nat} (h : Confined image s) (A : PageSource σ)
    (slot : Nat) (hsorted : entries.Pairwise (· < ·))
    (hinside : ∀ i ∈ entries,
      (∀ j ∈ entries, j < i → 0 ≤ validateSegment (image.phdr j) image.size) → HeaderInside image i) :
    Confined image (forEach (loadHeader A image slot) entries s).1 := by
  induction entries generalizing s with
  | nil => exact h
  | cons i rest ih =>
    rw [List.pairwise_cons] at hsorted
    have hi : HeaderInside image i := by
      apply hinside i List.mem_cons_self
      intro j hj hlt
      rcases List.mem_cons.mp hj with rfl | hj
      · exact absurd hlt (lt_irrefl _)
      · exact absurd hlt (not_lt.mpr (hsorted.1 j hj).le)
    have hread := h.readPhdr hi.1
    have hrest : 0 ≤ validateSegment (image.phdr i) image.size → ∀ j ∈ rest,
        (∀ k ∈ rest, k < j → 0 ≤ validateSegment (image.phdr k) image.size) →
          HeaderInside image j := by
      intro hok j hj hearlier
      apply hinside j (List.mem_cons_of_mem i hj)
      intro k hk hlt
      rcases List.mem_cons.mp hk with rfl | hk
      · exact hok
      · exact hearlier k hk hlt
    rw [forEach]
    rcases loadHeader_cases A image slot i s with ⟨-, hstep⟩ | ⟨hval, hstep⟩ | ⟨hval, hstep⟩
    · rw [hstep]
      exact hread.of_trace rfl rfl
    · rw [hstep]
      exact ih hread hsorted.2 (hrest (hval.symm ▸ Int.one_nonneg))
    · have hload := hread.loadSegment A slot (validateSegment_eq_zero hval)
        (image.phdr_lt i).2.2.2 (hi.2 hval)
      cases hres : (s.readPhdr image i).loadSegment A image slot (image.phdr i) with
      | mk t ok =>
        rw [hres] at hload
        rw [hstep t ok hres]
        cases ok with
        | false => exact hload.of_trace rfl rfl
        | true => exact ih hload hsorted.2 (hrest (hval.symm ▸ le_refl _))

/-- The results of the allocator are page addresses. -/
def Aligned (A : PageSource σ) : Prop :=
  ∀ pmm, ∃ f, f < 1048576 ∧ (A.allocPage pmm).2 = frameAddr f

/-- The entries of the user part of a slot are faults and user tables in frames with a property. -/
def UserEntries (P : Nat → Prop) (m : ArmVmm σ) (slot : Nat) : Prop :=
  ∀ i < 3072, m.l1 slot i = armL1TypeFault ∨ ∃ f, f < 1048576 ∧ P f ∧ m.l1 slot i = userTable f

/-- A page that can be mapped for user mode. -/
structure UserPage (flags : Word) (va : Nat) : Prop where
  aligned : va % 4096 = 0
  index : l1Index va < 3072
  wx : halMmuCheckWx flags = true
  user : hasFlag flags halPageUser = true

theorem segment_userPage (h : SegmentAccepted phdr image.size) (hmemsz : phdr.pMemsz < 4294967296)
    {va : Nat} (hva : va ∈ segmentPages phdr) :
    UserPage (segmentFlagsToHal phdr.pFlags) va := by
  rw [h.segmentPages_eq hmemsz] at hva
  obtain ⟨n, hn, rfl⟩ := List.mem_map.mp hva
  have hn := List.mem_range.mp hn
  have haligned := h.aligned
  have hbound := h.memEnd
  rw [h.memEnd_eq hmemsz] at hbound
  unfold userSpaceEnd at hbound
  unfold SegmentAccepted.pageCount at hn
  have hwx := h.wx
  refine ⟨by omega, by unfold l1Index; omega, ?_, ?_⟩
  all_goals
    unfold segmentFlagsToHal
    revert hwx
    cases hasFlag phdr.pFlags pfW <;> cases hasFlag phdr.pFlags pfX <;> decide

theorem stack_userPage {va : Nat} (hva : va ∈ stackPages) : UserPage halPageUserData va := by
  obtain ⟨n, hn, rfl⟩ := List.mem_map.mp hva
  have hn := List.mem_range.mp hn
  unfold userStackVirtTop userStackSize at *
  exact ⟨by omega, by unfold l1Index; omega, by decide, by decide⟩

variable {P : Nat → Prop} {f : Nat}

/-- Mapping a user page finds no memory for the table, finds the table, or makes it. -/
theorem map_cases (hA : Aligned A) {m : ArmVmm σ} {flags : Word} {va : Nat}
    (hm : UserEntries P m slot) (hpage : UserPage flags va) (hf : f < 1048576) :
    (m.l1 slot (l1Index va) = armL1TypeFault ∧ (A.allocPage m.pmm).2 = 0#32 ∧
        m.halMmuMapPageInSpace A (some slot) va (frameAddr f) flags =
          ({ m with pmm := (A.allocPage m.pmm).1 }, -1)) ∨
      (m.l1 slot (l1Index va) ≠ armL1TypeFault ∧ ∃ m',
        m.halMmuMapPageInSpace A (some slot) va (frameAddr f) flags = (m', 0) ∧
        m'.pmm = m.pmm ∧ m'.used = m.used ∧ m'.l1 = m.l1) ∨
      (m.l1 slot (l1Index va) = armL1TypeFault ∧ ∃ g m', 0 < g ∧ g < 1048576 ∧
        (A.allocPage m.pmm).2 = frameAddr g ∧
        m.halMmuMapPageInSpace A (some slot) va (frameAddr f) flags = (m', 0) ∧
        m'.pmm = (A.allocPage m.pmm).1 ∧ m'.used = m.used ∧
        ∀ i, m'.l1 slot i = if i = l1Index va then userTable g else m.l1 slot i) := by
  have hphys : frameAddr f &&& 0xFFF#32 = 0#32 := by
    rw [← physOf_frameAddr hf, physOf, BitVec.and_assoc]
    simp
  have hrun : ∀ m' ok, m.ensureTable A slot va flags = (m', ok) →
      m.halMmuMapPageInSpace A (some slot) va (frameAddr f) flags =
        if ok = false then (m', -1)
        else if l1Type (m'.l1 slot (l1Index va)) ≠ armL1TypeCoarse then (m', -1)
        else ({ m' with
          mem := storeWord m'.mem ((l2PhysFromL1 (m'.l1 slot (l1Index va))).toNat + 4 * l2Index va)
            (smallPage (frameAddr f) flags) }, 0) := by
    intro m' ok hensure
    unfold ArmVmm.halMmuMapPageInSpace
    simp only [hpage.aligned, hphys, hpage.wx, Nat.not_le.mpr hpage.index, hensure,
      not_true_eq_false, if_false, ne_eq, Bool.not_true, Bool.false_eq_true]
    cases ok <;> rfl
  rcases hm (l1Index va) hpage.index with hfault | ⟨g, hg, -, hentry⟩
  · have htype : l1Type (m.l1 slot (l1Index va)) = armL1TypeFault := by
      rw [hfault]
      rfl
    obtain ⟨g, hg, hres⟩ := hA m.pmm
    by_cases hzero : g = 0
    · left
      have hnone : (A.allocPage m.pmm).2 = 0#32 := by
        rw [hres, hzero]
        rfl
      refine ⟨hfault, hnone, (hrun { m with pmm := (A.allocPage m.pmm).1 } false ?_).trans rfl⟩
      unfold ArmVmm.ensureTable
      rw [if_pos htype]
      exact if_pos hnone
    · right
      right
      have hsome : (A.allocPage m.pmm).2 ≠ 0#32 := by
        rw [hres, Ne, frameAddr_eq_zero_iff hg]
        exact hzero
      have hensure : m.ensureTable A slot va flags =
          (m.withTable slot (l1Index va) g (A.allocPage m.pmm).1, true) := by
        unfold ArmVmm.ensureTable
        rw [if_pos htype]
        dsimp only
        rw [if_neg hsome, hpage.user, if_pos rfl, hres, frameAddr_toNat hg]
        rfl
      have hcoarse : l1Type ((m.withTable slot (l1Index va) g (A.allocPage m.pmm).1).l1 slot
          (l1Index va)) = armL1TypeCoarse := by
        unfold ArmVmm.withTable
        rw [ArmVmm.setL1_l1, if_pos ⟨rfl, rfl⟩, l1Type_userTable hg]
      have hmap := hrun _ true hensure
      rw [if_neg (by simp), if_neg (not_not.mpr hcoarse)] at hmap
      refine ⟨hfault, g, _, Nat.pos_of_ne_zero hzero, hg, hres, hmap, rfl, rfl, fun i => ?_⟩
      unfold ArmVmm.withTable
      simp [ArmVmm.setL1_l1]
  · right
    left
    have htype : l1Type (m.l1 slot (l1Index va)) = armL1TypeCoarse := by
      rw [hentry, l1Type_userTable hg]
    have hensure : m.ensureTable A slot va flags = (m, true) := by
      unfold ArmVmm.ensureTable
      rw [htype, if_neg (by decide)]
    have hmap := hrun m true hensure
    rw [if_neg (by simp), if_neg (not_not.mpr htype)] at hmap
    refine ⟨?_, _, hmap, rfl, rfl, rfl⟩
    rw [hentry]
    exact userTable_ne_fault hg

/-- Taking a user page fails for want of memory, gives back the page for want of a table, finds the
table, or makes it. -/
theorem takePage_cases (hA : Aligned A) {flags : Word} {va : Nat}
    (hs : UserEntries P s.vmm slot) (hpage : UserPage flags va) :
    ((A.allocPage s.vmm.pmm).2 = 0#32 ∧ s.takePage A slot flags va =
        ({ s with vmm := { s.vmm with pmm := (A.allocPage s.vmm.pmm).1 } }, none)) ∨
      ∃ f, 0 < f ∧ f < 1048576 ∧ (A.allocPage s.vmm.pmm).2 = frameAddr f ∧
        ((s.vmm.l1 slot (l1Index va) = armL1TypeFault ∧
            (A.allocPage (A.allocPage s.vmm.pmm).1).2 = 0#32 ∧
            s.takePage A slot flags va =
              ({ s with vmm := { s.vmm with
                  pmm := A.freePage (A.allocPage (A.allocPage s.vmm.pmm).1).1 (frameAddr f) } },
                none)) ∨
          ∃ t, s.takePage A slot flags va = (t, some (frameAddr f)) ∧
            t.vmm.used = s.vmm.used ∧ t.reads = s.reads ∧
            ((s.vmm.l1 slot (l1Index va) ≠ armL1TypeFault ∧
                t.vmm.pmm = (A.allocPage s.vmm.pmm).1 ∧ t.vmm.l1 = s.vmm.l1) ∨
              (s.vmm.l1 slot (l1Index va) = armL1TypeFault ∧ ∃ g, 0 < g ∧ g < 1048576 ∧
                (A.allocPage (A.allocPage s.vmm.pmm).1).2 = frameAddr g ∧
                t.vmm.pmm = (A.allocPage (A.allocPage s.vmm.pmm).1).1 ∧
                ∀ i, t.vmm.l1 slot i =
                  if i = l1Index va then userTable g else s.vmm.l1 slot i))) := by
  obtain ⟨f, hf, hres⟩ := hA s.vmm.pmm
  by_cases hzero : (A.allocPage s.vmm.pmm).2 = 0#32
  · left
    refine ⟨hzero, ?_⟩
    unfold takePage
    exact if_pos hzero
  · right
    have hpos : 0 < f := by
      rw [hres, frameAddr_eq_zero_iff hf] at hzero
      exact Nat.pos_of_ne_zero hzero
    have hrun : ∀ m' r, ArmVmm.halMmuMapPageInSpace A { s.vmm with pmm := (A.allocPage s.vmm.pmm).1 }
        (some slot) va (frameAddr f) flags = (m', r) →
        s.takePage A slot flags va =
          if r < 0 then ({ s with vmm := { m' with pmm := A.freePage m'.pmm (frameAddr f) } }, none)
          else ({ s with
              vmm := { m' with mem := zeroPage m'.mem (frameAddr f).toNat }
              mapped := va :: s.mapped }, some (frameAddr f)) := by
      intro m' r hmap
      unfold takePage
      dsimp only
      rw [if_neg hzero, hres, hmap]
    have hentries : UserEntries P { s.vmm with pmm := (A.allocPage s.vmm.pmm).1 } slot := hs
    refine ⟨f, hpos, hf, hres, ?_⟩
    rcases map_cases hA hentries hpage hf with ⟨hfault, hnone, hmap⟩ |
      ⟨htable, m', hmap, hpmm, hused, hl1⟩ | ⟨hfault, g, m', hgpos, hg, hsome, hmap, hpmm, hused, hl1⟩
    · exact Or.inl ⟨hfault, hnone, (hrun _ _ hmap).trans (if_pos (by decide))⟩
    · exact Or.inr ⟨_, (hrun _ _ hmap).trans (if_neg (lt_irrefl _)), hused, rfl,
        Or.inl ⟨htable, hpmm, hl1⟩⟩
    · exact Or.inr ⟨_, (hrun _ _ hmap).trans (if_neg (lt_irrefl _)), hused, rfl,
        Or.inr ⟨hfault, g, hgpos, hg, hsome, hpmm, hl1⟩⟩

/-- An allocator that always gives the same page. -/
def onePage : PageSource Unit := ⟨fun pmm => (pmm, frameAddr 1), fun pmm _ => pmm⟩

theorem aligned_onePage : Aligned onePage := fun _ => ⟨1, by decide, rfl⟩

/-- The slot of a space that is being loaded has tables and faults. -/
def Loading (slot : Nat) (s : ArmLoad σ) : Prop := UserEntries (fun _ => True) s.vmm slot

theorem takePage_onePage {s : ArmLoad Unit} {flags : Word} {va : Nat} (hs : Loading slot s)
    (hpage : UserPage flags va) :
    ∃ t, s.takePage onePage slot flags va = (t, some (frameAddr 1)) ∧ Loading slot t ∧
      t.reads = s.reads := by
  have hne : ∀ pmm, (onePage.allocPage pmm).2 ≠ 0#32 := fun _ => by
    change frameAddr 1 ≠ 0#32
    decide
  rcases takePage_cases aligned_onePage hs hpage with ⟨hnone, -⟩ | ⟨f, -, hf, hres, hcases⟩
  · exact absurd hnone (hne _)
  · have hone : frameAddr f = frameAddr 1 := hres.symm
    rw [hone] at hcases
    rcases hcases with ⟨-, hnone, -⟩ | ⟨t, htake, -, hreads, htables⟩
    · exact absurd hnone (hne _)
    · refine ⟨t, htake, ?_, hreads⟩
      rcases htables with ⟨-, -, hl1⟩ | ⟨-, g, -, hg, -, -, hl1⟩
      · intro i hi
        rw [hl1]
        exact hs i hi
      · intro i hi
        rw [hl1]
        split_ifs
        · exact Or.inr ⟨g, hg, trivial, rfl⟩
        · exact hs i hi

theorem copyPage_vmm (image : ElfImage) (phdr : Elf32Phdr) (s : ArmLoad σ) (pageVa : Nat) (pagePa : Word) :
    (s.copyPage image phdr pageVa pagePa).vmm.l1 = s.vmm.l1 ∧
      (s.copyPage image phdr pageVa pagePa).vmm.used = s.vmm.used ∧
      (s.copyPage image phdr pageVa pagePa).vmm.pmm = s.vmm.pmm := by
  unfold copyPage
  dsimp only
  split_ifs <;> exact ⟨rfl, rfl, rfl⟩

theorem loadPage_onePage {s : ArmLoad Unit} (haccept : SegmentAccepted phdr image.size)
    (hmemsz : phdr.pMemsz < 4294967296) (hs : Loading slot s) {n : Nat}
    (hn : n < SegmentAccepted.pageCount phdr) :
    (s.loadPage onePage image slot phdr (phdr.pVaddr + n * 4096)).2 = true ∧
      Loading slot (s.loadPage onePage image slot phdr (phdr.pVaddr + n * 4096)).1 ∧
      (s.loadPage onePage image slot phdr (phdr.pVaddr + n * 4096)).1.reads =
        if n * 4096 < phdr.pFilesz then
          (wrap32 (phdr.pOffset + n * 4096), min 4096 (phdr.pFilesz - n * 4096)) :: s.reads
        else s.reads := by
  have hva : phdr.pVaddr + n * 4096 ∈ segmentPages phdr := by
    rw [haccept.segmentPages_eq hmemsz]
    exact List.mem_map.mpr ⟨n, List.mem_range.mpr hn, rfl⟩
  obtain ⟨t, htake, hloading, hreads⟩ :=
    takePage_onePage hs (segment_userPage haccept hmemsz hva)
  have hload : s.loadPage onePage image slot phdr (phdr.pVaddr + n * 4096) =
      (t.copyPage image phdr (phdr.pVaddr + n * 4096) (frameAddr 1), true) := by
    unfold loadPage
    rw [htake]
  rw [hload]
  refine ⟨rfl, ?_, ?_⟩
  · intro i hi
    rw [(copyPage_vmm image phdr t _ _).1]
    exact hloading i hi
  · rw [← hreads]
    exact copyPage_reads haccept hmemsz hn t _

/-- A segment is loaded, and every byte of its data is read. -/
theorem loadSegment_onePage {s : ArmLoad Unit} (haccept : SegmentAccepted phdr image.size)
    (hmemsz : phdr.pMemsz < 4294967296) (hs : Loading slot s) :
    (s.loadSegment onePage image slot phdr).2 = true ∧
      Loading slot (s.loadSegment onePage image slot phdr).1 ∧
      s.reads ⊆ (s.loadSegment onePage image slot phdr).1.reads ∧
      ∀ n, n * 4096 < phdr.pFilesz →
        (wrap32 (phdr.pOffset + n * 4096), min 4096 (phdr.pFilesz - n * 4096)) ∈
          (s.loadSegment onePage image slot phdr).1.reads := by
  unfold loadSegment
  have hbody : ∀ s, ∀ va ∈ segmentPages phdr, Loading slot s →
      (loadPage onePage image slot phdr s va).2 = true ∧
        Loading slot (loadPage onePage image slot phdr s va).1 ∧
        s.reads ⊆ (loadPage onePage image slot phdr s va).1.reads := by
    intro s va hva hs
    rw [haccept.segmentPages_eq hmemsz] at hva
    obtain ⟨n, hn, rfl⟩ := List.mem_map.mp hva
    obtain ⟨hok, hloading, hreads⟩ := loadPage_onePage haccept hmemsz hs (List.mem_range.mp hn)
    refine ⟨hok, hloading, ?_⟩
    rw [hreads]
    split_ifs
    · exact List.subset_cons_self ..
    · exact List.Subset.refl _
  obtain ⟨hok, hloading, hreads, hall⟩ := forEach_all hbody hs
  refine ⟨hok, hloading, hreads, fun n hcopy => ?_⟩
  have hn : n < SegmentAccepted.pageCount phdr := by
    have hfilesz := haccept.filesz
    unfold SegmentAccepted.pageCount
    omega
  have hva : phdr.pVaddr + n * 4096 ∈ segmentPages phdr := by
    rw [haccept.segmentPages_eq hmemsz]
    exact List.mem_map.mpr ⟨n, List.mem_range.mpr hn, rfl⟩
  obtain ⟨t, ht, hsub⟩ := hall _ hva
  apply hsub
  rw [(loadPage_onePage haccept hmemsz ht hn).2.2, if_pos hcopy]
  exact List.mem_cons_self

/-- What one header reads. -/
def HeaderRead (image : ElfImage) (i : Nat) (reads : List (Nat × Nat)) : Prop :=
  (∀ f ∈ segmentFields (image.phdr i) image.size, (image.phdrOffset i + f, 4) ∈ reads) ∧
    (validateSegment (image.phdr i) image.size = 0 → ∀ n, n * 4096 < (image.phdr i).pFilesz →
      (wrap32 ((image.phdr i).pOffset + n * 4096), min 4096 ((image.phdr i).pFilesz - n * 4096)) ∈
        reads)

theorem HeaderRead.mono {reads reads' : List (Nat × Nat)} (h : HeaderRead image i reads)
    (hsub : reads ⊆ reads') : HeaderRead image i reads' :=
  ⟨fun f hf => hsub (h.1 f hf), fun hval n hn => hsub (h.2 hval n hn)⟩

theorem loadHeader_onePage (image : ElfImage) (i : Nat) {s : ArmLoad Unit} (hs : Loading slot s) :
    s.reads ⊆ (s.loadHeader onePage image slot i).1.reads ∧
      HeaderRead image i (s.loadHeader onePage image slot i).1.reads ∧
      (0 ≤ validateSegment (image.phdr i) image.size →
        (s.loadHeader onePage image slot i).2 = true) ∧
      ((s.loadHeader onePage image slot i).2 = true →
        Loading slot (s.loadHeader onePage image slot i).1) := by
  have hfields : ∀ f ∈ segmentFields (image.phdr i) image.size,
      (image.phdrOffset i + f, 4) ∈ (s.readPhdr image i).reads := fun f hf =>
    List.mem_append_left _ (List.mem_map.mpr ⟨f, hf, rfl⟩)
  have hmore : s.reads ⊆ (s.readPhdr image i).reads := List.subset_append_right ..
  rcases loadHeader_cases onePage image slot i s with ⟨hval, hstep⟩ | ⟨hval, hstep⟩ | ⟨hval, hstep⟩
  · rw [hstep, hval]
    exact ⟨hmore, ⟨hfields, fun h => absurd h (by rw [hval]; decide)⟩, fun h => absurd h (by decide),
      fun h => by cases h⟩
  · rw [hstep]
    exact ⟨hmore, ⟨hfields, fun h => absurd h (by rw [hval]; decide)⟩, fun _ => rfl, fun _ => hs⟩
  · have hload := loadSegment_onePage (validateSegment_eq_zero hval)
      (image.phdr_lt i).2.2.2 (show Loading slot (s.readPhdr image i) from hs)
    cases hres : (s.readPhdr image i).loadSegment onePage image slot (image.phdr i) with
    | mk t ok =>
      rw [hres] at hload
      obtain ⟨rfl, hloading, hreads, hdata⟩ := hload
      rw [hstep t true hres]
      exact ⟨List.Subset.trans hmore hreads,
        ⟨fun f hf => hreads (hfields f hf), fun _ => hdata⟩, fun _ => rfl, fun _ => hloading⟩

/-- A header is reached when those before it are accepted or skipped. -/
theorem loadHeaders_onePage (image : ElfImage) {s : ArmLoad Unit} {entries : List Nat}
    (hsorted : entries.Pairwise (· < ·)) (hs : Loading slot s) (hi : i ∈ entries)
    (hearlier : ∀ j ∈ entries, j < i → 0 ≤ validateSegment (image.phdr j) image.size) :
    HeaderRead image i (forEach (loadHeader onePage image slot) entries s).1.reads := by
  -- The loop keeps what has been read.
  have hmono : ∀ (entries : List Nat) (s : ArmLoad Unit), Loading slot s →
      s.reads ⊆ (forEach (loadHeader onePage image slot) entries s).1.reads := by
    intro entries
    induction entries with
    | nil => exact fun s _ => List.Subset.refl _
    | cons j rest ih =>
      intro s hs
      obtain ⟨hreads, -, -, hloading⟩ := loadHeader_onePage image j hs
      rw [forEach]
      cases hres : s.loadHeader onePage image slot j with
      | mk t ok =>
        rw [hres] at hreads hloading
        cases ok with
        | false => exact hreads
        | true => exact List.Subset.trans hreads (ih t (hloading rfl))
  induction entries generalizing s with
  | nil => cases hi
  | cons j rest ih =>
    rw [List.pairwise_cons] at hsorted
    obtain ⟨-, hread, hok, hloading⟩ := loadHeader_onePage image j hs
    rw [forEach]
    cases hres : s.loadHeader onePage image slot j with
    | mk t ok =>
      rw [hres] at hread hok hloading
      rcases List.mem_cons.mp hi with rfl | hi
      · cases ok with
        | false => exact hread
        | true => exact hread.mono (hmono rest t (hloading rfl))
      · obtain rfl : ok = true := hok (hearlier j List.mem_cons_self (hsorted.1 i hi))
        exact ih hsorted.2 (hloading rfl) hi fun k hk => hearlier k (List.mem_cons_of_mem j hk)

/-- Each header that is reached, those before it being accepted or skipped, is inside. -/
def HeadersInside (image : ElfImage) : Prop :=
  elf32HeaderSize ≤ image.size → validateElfHeader image.ehdr image.size = true →
    ∀ i < image.ehdr.ePhnum, (∀ j < i, 0 ≤ validateSegment (image.phdr j) image.size) →
      HeaderInside image i

theorem Confined.armElfLoad (h : HeadersInside image) (A : PageSource σ) (m : ArmVmm σ) :
    Confined image (armElfLoad A image m).1 := by
  unfold ArmLoad.armElfLoad
  by_cases hsize : image.size < elf32HeaderSize
  · rw [if_pos hsize]
    constructor <;> simp
  · have hstart : ∀ m : ArmVmm σ, Confined image ⟨m, [(0, elf32HeaderSize)], []⟩ := by
      intro m
      constructor
      · intro r hr k hk
        obtain rfl := List.mem_singleton.mp hr
        simp only at hk ⊢
        omega
      · simp
    rw [if_neg hsize]
    cases hvalid : validateElfHeader image.ehdr image.size with
    | false => exact hstart m
    | true =>
      rw [if_neg (by simp)]
      cases hcreate : m.halMmuCreateSpace with
      | mk m' created =>
        cases created with
        | none => exact hstart m'
        | some slot =>
          have hheaders := (hstart m').loadHeaders A slot
            (List.pairwise_lt_range (n := image.ehdr.ePhnum)) fun i hi hearlier =>
              h (not_lt.mp hsize) hvalid i (List.mem_range.mp hi) fun j hj =>
                hearlier j (List.mem_range.mpr (hj.trans (List.mem_range.mp hi))) hj
          dsimp only
          cases hres : forEach (loadHeader A image slot) (List.range image.ehdr.ePhnum)
              ⟨m', [(0, elf32HeaderSize)], []⟩ with
          | mk t ok =>
            rw [hres] at hheaders
            cases ok with
            | false => exact hheaders
            | true =>
              have hstack := hheaders.allocateUserStack A slot
              dsimp only
              cases hres' : ArmLoad.allocateUserStack A slot t with
              | mk u ok =>
                rw [hres'] at hstack
                cases ok <;> exact hstack.of_trace rfl rfl

theorem allocateUserStack_reads (A : PageSource σ) (slot : Nat) (s : ArmLoad σ) :
    (s.allocateUserStack A slot).1.reads = s.reads := by
  have hround : ∀ t, ∀ va ∈ stackPages, t.reads = s.reads → (stackPage A slot t va).1.reads = s.reads := by
    intro t va _ ht
    have htake := (takePage_trace A slot halPageUserData t va).1
    unfold stackPage
    cases hres : t.takePage A slot halPageUserData va with
    | mk u page =>
      rw [hres] at htake
      cases page <;> exact htake.trans ht
  exact forEach_invariant hround rfl

/-- Tables without a space. -/
def emptyVmm {σ : Type} (pmm : σ) : ArmVmm σ :=
  ⟨fun _ _ => 0#32, fun _ => false, fun _ => 0#32, fun _ => 0#8, pmm⟩

/-- With memory for all pages, everything a reached header asks for is read. -/
theorem armElfLoad_onePage (hsize : elf32HeaderSize ≤ image.size)
    (hvalid : validateElfHeader image.ehdr image.size = true) (hi : i < image.ehdr.ePhnum)
    (hearlier : ∀ j < i, 0 ≤ validateSegment (image.phdr j) image.size) :
    HeaderRead image i (armElfLoad onePage image (emptyVmm ())).1.reads := by
  have hloading : Loading 0 ⟨(emptyVmm ()).withSpace 0, [(0, elf32HeaderSize)], []⟩ := fun j hj =>
    Or.inl (ArmVmm.withSpace_fault _ 0 hj)
  have hread := loadHeaders_onePage image List.pairwise_lt_range hloading
    (List.mem_range.mpr hi) fun j _ hj => hearlier j hj
  have hcreate : (emptyVmm ()).halMmuCreateSpace = ((emptyVmm ()).withSpace 0, some 0) := rfl
  unfold armElfLoad
  rw [if_neg (not_lt.mpr hsize), hvalid, if_neg (by simp), hcreate]
  dsimp only
  cases hres : forEach (loadHeader onePage image 0) (List.range image.ehdr.ePhnum)
      ⟨(emptyVmm ()).withSpace 0, [(0, elf32HeaderSize)], []⟩ with
  | mk t ok =>
    rw [hres] at hread
    cases ok with
    | false => exact hread
    | true =>
      have hstack := allocateUserStack_reads onePage 0 t
      dsimp only
      cases hres' : allocateUserStack onePage 0 t with
      | mk u ok =>
        rw [hres'] at hstack
        rw [← hstack] at hread
        cases ok <;> exact hread

/-- Reads in the image keep the header in it, and the data of its segment from wrapping. -/
theorem HeaderRead.inside {reads : List (Nat × Nat)} (h : HeaderRead image i reads)
    (hreads : ∀ r ∈ reads, ∀ k < r.2, r.1 + k < image.size) : HeaderInside image i := by
  constructor
  · obtain ⟨f, hf, hextent⟩ := exists_segmentFields (image.phdr i) image.size
    have hlast := hreads _ (h.1 f hf) 3 (show 3 < 4 by decide)
    simp only at hlast
    omega
  · intro hval
    by_contra hwrap
    have hbounds := image.phdr_lt i
    have hfits := image.fits
    -- The data goes over the last offset, which is past the image.
    obtain ⟨n, k, hk, hlast⟩ : ∃ n k, k < 4096 ∧
        (image.phdr i).pOffset + n * 4096 + k = 4294967295 :=
      ⟨(4294967295 - (image.phdr i).pOffset) / 4096, (4294967295 - (image.phdr i).pOffset) % 4096,
        Nat.mod_lt _ (by omega), by omega⟩
    have hread := hreads _ (h.2 hval n (by omega)) k (by
      simp only
      omega)
    unfold wrap32 at hread
    simp only at hread
    omega

/-- The images that every load reads inside their bounds, whatever pages the allocator gives; the
pages mapped are in user space. -/
theorem arm_elf_reads_iff (image : ElfImage) :
    (∀ (σ : Type) (A : PageSource σ) (m : ArmVmm σ), Confined image (armElfLoad A image m).1) ↔
      HeadersInside image := by
  constructor
  · intro h hsize hvalid i hi hearlier
    exact (armElfLoad_onePage hsize hvalid hi hearlier).inside (h Unit onePage (emptyVmm ())).reads
  · exact fun h σ A m => Confined.armElfLoad h A m

/-- A file of 84 bytes whose one segment starts 4096 bytes below the end of the offsets. -/
def wrapImage : ElfImage where
  bytes k := BitVec.ofNat 8 ([0x7F, 0x45, 0x4C, 0x46, 1, 1, 1, 0, 0, 0, 0, 0, 0, 0, 0, 0,
    2, 0, 40, 0, 1, 0, 0, 0, 0, 0x80, 0, 0, 52, 0, 0, 0, 0, 0, 0, 0, 0, 0, 0, 0,
    52, 0, 32, 0, 1, 0, 0, 0, 0, 0, 0, 0,
    1, 0, 0, 0, 0, 0xF0, 0xFF, 0xFF, 0, 0x80, 0, 0, 0, 0, 0, 0, 0, 0x10, 0, 0, 0, 0x10, 0, 0,
    4, 0, 0, 0, 0, 0x10, 0, 0].getD k 0)
  size := 84
  fits := by decide

/-- It is accepted, and read far behind its end. -/
theorem arm_elf_reads_wrapped :
    (armElfLoad ArmPmm.source wrapImage (emptyVmm (ArmPmm.init 0x140000))).2.isSome ∧
      ¬ Confined wrapImage (armElfLoad ArmPmm.source wrapImage (emptyVmm (ArmPmm.init 0x140000))).1 := by
  have hread : (0xFFFFF000, 0x1000) ∈
      (armElfLoad ArmPmm.source wrapImage (emptyVmm (ArmPmm.init 0x140000))).1.reads := by
    decide +kernel
  refine ⟨by decide +kernel, fun h => ?_⟩
  have hbyte : 0xFFFFF000 + 0 < 84 := h.reads _ hread 0 (show 0 < 0x1000 by decide)
  omega

end ArmLoad
end EnclaveOS
