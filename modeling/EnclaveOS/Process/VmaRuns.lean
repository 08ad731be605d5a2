import EnclaveOS.Memory.VmaClone
import EnclaveOS.Memory.VmaSpec
import EnclaveOS.Process.ProcessVmas
import EnclaveOS.Process.SystemBoot

/-!
# VmaRuns - the area list over the life of a process

An area list stays ordered while the loader, `brk` and `mmap` add areas
apart from the others and the ranges of `munmap` and `mprotect` do not
wrap inside an area.
-/

namespace EnclaveOS

open PageWord IntervalList

/-- Two areas do not touch the same addresses and differ in their starts. -/
def Apart (a b : Vma) : Prop :=
  IntervalList.Precedes Vma.start Vma.end a b ∨ IntervalList.Precedes Vma.start Vma.end b a

theorem userHeapStart_aligned : pageDown userHeapStart = userHeapStart := by decide

/-- The area of the stack. -/
def stackVma : Vma :=
  ⟨userStackVirtTop - userStackSize, userStackVirtTop, vmaRead ||| vmaWrite⟩

/-- The area of a heap that was not grown yet. -/
def emptyHeapVma : Vma := ⟨userHeapStart, userHeapStart, vmaRead ||| vmaWrite⟩

/-- The segments of an accepted file are not empty, do not wrap, and lie apart
from each other, from the stack and from the start of the heap. -/
structure SegmentsApart (segments : List Elf32Phdr) : Prop where
  nonempty : ∀ h ∈ segments, h.vma.start < h.vma.end
  apart : segments.Pairwise fun g h => Apart g.vma h.vma
  stack : ∀ h ∈ segments, Apart h.vma stackVma
  heap : ∀ h ∈ segments, Apart h.vma emptyHeapVma

/-- The same of the file itself. -/
def FileApart (file : VfsFile) : Prop :=
  ∀ header, ElfAccepted file header →
    SegmentsApart (loadHeaders file header (List.range header.ePhnum))

namespace VmaInv

variable {vmas : List Vma}

/-- The areas of a loaded file are those of its segments. -/
theorem loaded {segments : List Elf32Phdr} (h : VmaInv vmas)
    (hok : ∀ ph ∈ segments, VmaOk ph.vma)
    (hapart : segments.Pairwise fun g h => Apart g.vma h.vma)
    (hother : ∀ ph ∈ segments, ∀ v ∈ vmas, Apart v ph.vma) :
    VmaInv (loadedVmas segments vmas) ∧
      ∀ v ∈ loadedVmas segments vmas, v ∈ vmas ∨ ∃ ph ∈ segments, v = ph.vma := by
  induction segments generalizing vmas with
  | nil => exact ⟨h, fun v hv => Or.inl hv⟩
  | cons ph rest ih =>
    obtain ⟨hph, hrest⟩ := List.forall_mem_cons.mp hok
    obtain ⟨hfirst, hapart⟩ := List.pairwise_cons.mp hapart
    obtain ⟨hnew, hothers⟩ := List.forall_mem_cons.mp hother
    have hnext : ∀ g ∈ rest, ∀ v ∈ vmaInsert ph.vma vmas, Apart v g.vma := by
      intro g hg v hv
      rcases mem_vmaInsert.mp hv with rfl | hold
      · exact hfirst g hg
      · exact hothers g hg v hold
    obtain ⟨hinv, hmem⟩ := ih (h.insert hph hnew) hrest hapart hnext
    refine ⟨hinv, fun v hv => ?_⟩
    rcases hmem v hv with hold | ⟨g, hg, rfl⟩
    · rcases mem_vmaInsert.mp hold with rfl | hold
      · exact Or.inr ⟨ph, List.mem_cons_self, rfl⟩
      · exact Or.inl hold
    · exact Or.inr ⟨g, List.mem_cons_of_mem _ hg, rfl⟩

theorem addStackAndHeap (h : VmaInv vmas) (hstack : ∀ v ∈ vmas, Apart v stackVma)
    (hheap : ∀ v ∈ vmas, Apart v emptyHeapVma) (k : Kmalloc) :
    VmaInv (addStackAndHeap vmas k).1 := by
  have hstackVma : (⟨pageDown (userStackVirtTop - userStackSize), pageUp userStackVirtTop,
      vmaRead ||| vmaWrite⟩ : Vma) = stackVma := by decide
  have hheapVma : (⟨pageDown userHeapStart, pageUp userHeapStart, vmaRead ||| vmaWrite⟩ : Vma) =
      emptyHeapVma := by decide
  have hinv : VmaInv (vmaAdd vmas (userStackVirtTop - userStackSize) userStackVirtTop
      (vmaRead ||| vmaWrite) k).1 :=
    h.add _ k (by rw [hstackVma]; exact hstack) (by decide) (by decide)
  have hheap' : ∀ v ∈ (vmaAdd vmas (userStackVirtTop - userStackSize) userStackVirtTop
      (vmaRead ||| vmaWrite) k).1, Apart v emptyHeapVma := by
    rcases vmaAdd_cases vmas (userStackVirtTop - userStackSize) userStackVirtTop
      (vmaRead ||| vmaWrite) k with ⟨hsame, -⟩ | ⟨-, -, hinsert, -⟩
    · rw [hsame]
      exact hheap
    · rw [hinsert, hstackVma]
      intro v hv
      rcases mem_vmaInsert.mp hv with rfl | hold
      · exact Or.inr (by unfold IntervalList.Precedes; decide)
      · exact hheap v hold
  unfold EnclaveOS.addStackAndHeap
  rcases hres : vmaAdd vmas (userStackVirtTop - userStackSize) userStackVirtTop
    (vmaRead ||| vmaWrite) k with ⟨vmas', ret, k'⟩
  rw [hres] at hinv hheap'
  dsimp only
  split_ifs
  · exact hinv
  · exact hinv.add _ k' (by rw [hheapVma]; exact hheap') (by decide) (by decide)

/-- The areas of a new image. -/
theorem newImage {segments : List Elf32Phdr} (hacc : ∀ h ∈ segments, h.Accepted)
    (hapart : SegmentsApart segments) (k : Kmalloc) :
    VmaInv (EnclaveOS.addStackAndHeap (loadedVmas segments []) k).1 := by
  have hok : ∀ ph ∈ segments, VmaOk ph.vma := by
    intro ph hph
    have hlt := hapart.nonempty ph hph
    refine ⟨hlt.le, ?_, pageDown_mod _, fun heq => absurd heq hlt.ne, Or.inl (pageUp_mod _)⟩
    exact pageUp_le (hacc ph hph).2 (by decide) kernelSpaceStart_le_lastPage
  obtain ⟨hinv, hmem⟩ := VmaInv.nil.loaded hok hapart.apart (by rintro ph - v ⟨⟩)
  refine hinv.addStackAndHeap ?_ ?_ k
  · intro v hv
    rcases hmem v hv with hold | ⟨ph, hph, rfl⟩
    · cases hold
    · exact hapart.stack ph hph
  · intro v hv
    rcases hmem v hv with hold | ⟨ph, hph, rfl⟩
    · cases hold
    · exact hapart.heap ph hph

end VmaInv

/-- A new break is not below the heap area, and the first one makes an area apart
from the others. -/
def BrkApart (vmas : List Vma) (newBrk : Nat) : Prop :=
  newBrk = 0 ∨ userHeapStart + userHeapMaxSize < newBrk ∨
    match heapVma vmas with
    | some _ => userHeapStart ≤ newBrk
    | none => userHeapStart ≤ pageUp newBrk ∧
        ∀ v ∈ vmas, v.end ≤ userHeapStart ∨ pageUp newBrk ≤ v.start

/-- A mapping is not placed at the start of the heap while the heap is empty. -/
def MmapApart (vmas : List Vma) (addr len : Nat) (prot flags : Word) : Prop :=
  MmapAccepted len prot flags → pageDown addr = userHeapStart →
    ∀ v ∈ vmas, ¬(v.start = userHeapStart ∧ v.end = userHeapStart)

/-- The range of `munmap` does not end below its start inside an area. -/
def MunmapStraight (vmas : List Vma) (addr len : Nat) : Prop :=
  len ≠ 0 → ∀ v ∈ vmas, ¬(v.start < rangeEnd addr len ∧ rangeEnd addr len < pageDown addr ∧
    pageDown addr < v.end)

/-- The range of `mprotect` does not end at or below its start inside an area. -/
def MprotectStraight (vmas : List Vma) (addr len : Nat) (prot : Word) : Prop :=
  len ≠ 0 → ¬(hasFlag prot protWrite ∧ hasFlag prot protExec) →
    ∀ v ∈ vmas, ¬(v.start < rangeEnd addr len ∧ rangeEnd addr len ≤ pageDown addr ∧
      pageDown addr < v.end)

namespace VmaInv

variable {vmas : List Vma} {k : Kmalloc}

/-- The heap area gets another end. -/
theorem setHeapEnd (h : VmaInv vmas) {pos newBrk : Nat} {heap : Vma}
    (hheap : heapVma vmas = some (pos, heap)) (hlo : userHeapStart ≤ newBrk)
    (hlimit : newBrk ≤ userHeapStart + userHeapMaxSize)
    (hfit : newBrk < heap.end ∨
      heap.end < newBrk ∧ vmaIntersects vmas heap.end newBrk (some pos) = false) :
    VmaInv (vmas.set pos { heap with «end» := newBrk }) := by
  obtain ⟨hget, hstart⟩ := heapVma_some hheap
  have hpos : pos < vmas.length := (List.getElem?_eq_some_iff.mp hget).1
  have hmem : heap ∈ vmas := List.mem_of_getElem? hget
  have hbefore : ∀ i v, vmas[i]? = some v → i < pos →
      IntervalList.Precedes Vma.start Vma.end v heap := by
    intro i v hv hi
    obtain ⟨hi', rfl⟩ := List.getElem?_eq_some_iff.mp hv
    obtain ⟨-, rfl⟩ := List.getElem?_eq_some_iff.mp hget
    exact List.pairwise_iff_getElem.mp h.ordered i pos hi' hpos hi
  have hafter : ∀ i v, vmas[i]? = some v → pos < i →
      IntervalList.Precedes Vma.start Vma.end heap v := by
    intro i v hv hi
    obtain ⟨hi', rfl⟩ := List.getElem?_eq_some_iff.mp hv
    obtain ⟨-, rfl⟩ := List.getElem?_eq_some_iff.mp hget
    exact List.pairwise_iff_getElem.mp h.ordered pos i hpos hi' hi
  have hroom : ∀ i v, vmas[i]? = some v → pos < i → newBrk ≤ v.start := by
    intro i v hv hi
    obtain ⟨hlt, hle⟩ := hafter i v hv hi
    rcases hfit with hshrink | ⟨-, hfree⟩
    · omega
    · have hok := h.ok v (List.mem_of_getElem? hv)
      have hclear := vmaIntersectsFrom_false h.sorted hfree hv (by simp; omega)
      have hempty := hok.empty
      have := hok.le
      omega
  refine ⟨?_, ?_⟩
  · refine List.pairwise_iff_getElem.mpr fun i j hi hj hij => ?_
    rw [List.length_set] at hi hj
    rw [List.getElem_set, List.getElem_set]
    split_ifs with hpi hpj hpj
    · omega
    · subst hpi
      have hget' := List.getElem?_eq_getElem hj
      exact ⟨(hafter j _ hget' hij).1, hroom j _ hget' hij⟩
    · subst hpj
      exact hbefore i _ (List.getElem?_eq_getElem hi) hij
    · exact List.pairwise_iff_getElem.mp h.ordered i j hi hj hij
  · intro v hv
    rcases List.mem_or_eq_of_mem_set hv with hold | rfl
    · exact h.ok v hold
    · have hok := h.ok heap hmem
      refine ⟨hstart ▸ hlo, ?_, hok.aligned, fun _ => hstart, Or.inr hlimit⟩
      exact hlimit.trans (by decide)

theorem sysBrk (h : VmaInv vmas) (p : Pmm) {newBrk : Nat} (hapart : BrkApart vmas newBrk) :
    VmaInv (sysBrk p vmas newBrk k).1 := by
  rcases sysBrk_vmas p vmas newBrk k with
    hsame | ⟨hzero, hlimit, ⟨hnone, hadd⟩ | ⟨pos, heap, hheap, hset, hfit⟩⟩
  · rw [hsame]
    exact h
  · rw [hadd]
    rcases hapart with hzero' | hover | hapart
    · exact absurd hzero' hzero
    · omega
    · rw [hnone] at hapart
      obtain ⟨hle, hother⟩ := hapart
      refine h.add _ k ?_ (by rw [userHeapStart_aligned]; exact hle)
        fun _ => userHeapStart_aligned
      intro v hv
      have hne := heapVma_none hnone v hv
      have hok := (h.ok v hv).le
      rw [userHeapStart_aligned]
      unfold IntervalList.Precedes
      dsimp only
      rcases hother v hv with hbelow | habove
      · exact Or.inl ⟨by omega, hbelow⟩
      · exact Or.inr ⟨by omega, habove⟩
  · rw [hset]
    rcases hapart with hzero' | hover | hapart
    · exact absurd hzero' hzero
    · omega
    · rw [hheap] at hapart
      exact h.setHeapEnd hheap hapart hlimit hfit

/-- Where a mapping that is not rejected is placed. -/
theorem mmapAddr_apart (h : VmaInv vmas) {addr len a : Nat} {prot flags : Word}
    (haccepted : MmapAccepted len prot flags) (hapart : MmapApart vmas addr len prot flags)
    (haddr : mmapAddr vmas addr (pageUp len) = .ok a) (huser : a < kernelSpaceStart) :
    a % 4096 = 0 ∧ a + pageUp len < 4294967296 ∧ 0 < pageUp len ∧
      ∀ v ∈ vmas, v.start < a ∧ v.end ≤ a ∨ a + pageUp len ≤ v.start := by
  have hsize : pageUp len ≤ userMmapMaxSize :=
    pageUp_le haccepted.fits (by decide) (by decide)
  have hpos : 0 < pageUp len := by
    have hle := le_pageUp (haccepted.fits.trans (by decide : userMmapMaxSize ≤ 0xFFFFF000))
    have hne := haccepted.nonempty
    omega
  unfold mmapAddr at haddr
  split_ifs at haddr with hauto hnone hover
  · -- the kernel chose the address
    cases haddr
    obtain ⟨hlo, hmod, hfit, hgap⟩ := vmaFindFreeArea_gap h hsize hnone huser
    refine ⟨hmod, lt_of_le_of_lt hfit (by decide), hpos, fun v hv => ?_⟩
    rcases hgap v hv with hbelow | habove
    · have hok := h.ok v hv
      have hle := hok.le
      have hempty := hok.empty
      unfold userMmapStart userHeapStart at *
      exact Or.inl ⟨by omega, hbelow⟩
    · exact Or.inr habove
  · cases haddr
    have hnowrap : pageDown addr + pageUp len < 4294967296 := by
      have hmod := pageDown_mod addr
      unfold userMmapMaxSize kernelSpaceStart at *
      omega
    refine ⟨pageDown_mod addr, hnowrap, hpos, fun v hv => ?_⟩
    have hclear := (vmaIntersects_eq_false_iff h.sorted).mp (Bool.not_eq_true _ ▸ hover) v hv
    unfold wrap32 at hclear
    rw [Nat.mod_eq_of_lt hnowrap] at hclear
    have hok := h.ok v hv
    have hle := hok.le
    have hempty := hok.empty
    by_cases hbelow : v.end ≤ pageDown addr
    · refine Or.inl ⟨?_, hbelow⟩
      by_contra hge
      have hstart : v.start = userHeapStart := hempty (by omega)
      exact hapart haccepted (by omega) v hv ⟨hstart, by omega⟩
    · exact Or.inr (by omega)

theorem sysMmap (h : VmaInv vmas) {addr len : Nat} {prot flags : Word}
    (hapart : MmapApart vmas addr len prot flags) :
    VmaInv (sysMmap vmas addr len prot flags k).1 := by
  rcases sysMmap_vmas vmas addr len prot flags k with
    hsame | ⟨haccepted, a, haddr, hadd⟩
  · rw [hsame]
    exact h
  · rw [hadd]
    by_cases huser : a < kernelSpaceStart
    · obtain ⟨hmod, hnowrap, hpos, hgap⟩ := h.mmapAddr_apart haccepted hapart haddr huser
      have hend : pageUp (wrap32 (a + pageUp len)) = a + pageUp len := by
        have hmod' := pageUp_mod len
        unfold wrap32
        rw [Nat.mod_eq_of_lt hnowrap]
        exact le_antisymm (pageUp_le le_rfl (by omega) (by omega)) (le_pageUp (by omega))
      have hstart : pageDown a = a := pageDown_eq_self hmod
      refine h.add _ k ?_ (by rw [hstart, hend]; omega) (by rw [hstart, hend]; omega)
      intro v hv
      rw [hstart, hend]
      rcases hgap v hv with hbelow | habove
      · exact Or.inl hbelow
      · refine Or.inr ⟨?_, habove⟩
        dsimp only
        omega
    · rcases vmaAdd_cases vmas a (wrap32 (a + pageUp len)) (protVmaFlags prot) k with
        ⟨hsame, -⟩ | ⟨hlt, -⟩
      · rw [hsame]
        exact h
      · exact absurd hlt huser

end VmaInv

/-- The operations that leave areas apart. -/
def SysOp.KeepsApart (s : System) : SysOp → Prop
  | .startInit file _ => FileApart file
  | .exec _ file _ => ∀ f, file = .ok f → FileApart f
  | .brk p newBrk _ => ∀ task, s.proc p = some task → BrkApart task.vmaHead newBrk
  | .mmap p addr len prot flags _ => ∀ task, s.proc p = some task →
      MmapApart task.vmaHead addr len prot flags
  | .munmap p addr len _ => ∀ task, s.proc p = some task →
      MunmapStraight task.vmaHead addr len
  | .mprotect p addr len prot _ => ∀ task, s.proc p = some task →
      MprotectStraight task.vmaHead addr len prot
  | _ => True

/-- The end of a range is a page boundary. -/
theorem rangeEnd_mod (addr len : Nat) : rangeEnd addr len % 4096 = 0 := by
  have hdown := pageDown_mod addr
  have hup := pageUp_mod len
  unfold rangeEnd wrap32
  omega

/-- One operation. -/
theorem VmaInv.edited {s : System} {op : SysOp} {vmas : List Vma} (hedit : Edited s op vmas)
    (h : ∀ p task, s.proc p = some task → VmaInv task.vmaHead) (hkeeps : op.KeepsApart s) :
    VmaInv vmas := by
  cases hedit with
  | kept hp => exact h _ _ hp
  | dropped => exact VmaInv.nil
  | mmap hp => exact (h _ _ hp).sysMmap (hkeeps _ hp)
  | munmap hp hlen =>
    exact (h _ _ hp).unmapRange (pageDown_mod _) (rangeEnd_mod _ _) _ (hkeeps _ hp hlen)
  | mprotect hp hlen hprot hend =>
    exact (h _ _ hp).protectRange (pageDown_mod _) (rangeEnd_mod _ _) _ _
      (hkeeps _ hp hlen hprot)
  | brk hp => exact (h _ _ hp).sysBrk _ (hkeeps _ hp)
  | fork hp => exact (h _ _ hp).clone _
  | startInit hacc => exact VmaInv.newImage hacc.accepted (hkeeps _ hacc) _
  | exec hacc => exact VmaInv.newImage hacc.accepted (hkeeps _ rfl _ hacc) _

/-- A well-formed area list: in order, with only the heap area empty, inside user
space, and disjoint. -/
structure VmasWellFormed (vmas : List Vma) : Prop where
  sorted : vmas.Pairwise fun a b => a.start ≤ b.start
  le : ∀ v ∈ vmas, v.start ≤ v.end
  empty : ∀ v ∈ vmas, v.start = v.end → v.start = userHeapStart
  user : ∀ v ∈ vmas, v.end ≤ kernelSpaceStart
  aligned : ∀ v ∈ vmas, v.start % 4096 = 0
  disjoint : vmas.Pairwise fun a b =>
    ∀ x, ¬(a.start ≤ x ∧ x < a.end ∧ b.start ≤ x ∧ x < b.end)

theorem VmaInv.wellFormed {vmas : List Vma} (h : VmaInv vmas) : VmasWellFormed vmas where
  sorted := h.sorted
  le := fun v hv => (h.ok v hv).le
  empty := fun v hv => (h.ok v hv).empty
  user := fun v hv => (h.ok v hv).below
  aligned := fun v hv => (h.ok v hv).aligned
  disjoint := h.ordered.imp fun {a b} hab x hx => by
    have := hab.2
    omega

/-- The area lists in every state reached. -/
theorem vmas_well_formed {image : BootImage} {info : BootInfo} {ram : Nat → Nat → Word}
    {s₀ s : System} (hboot : System.boot image info ram = some s₀)
    (hrun : Reach SysOp.step (fun s op => op.Possible s ∧ op.KeepsApart s) s₀ s) {p : Nat}
    {task : Process} (hp : s.proc p = some task) : VmasWellFormed task.vmaHead := by
  obtain ⟨own, hstart⟩ := System.boot_inv hboot
  have hall : ∀ p task, s.proc p = some task → VmaInv task.vmaHead := by
    refine hrun.invariant (P := fun s => ∀ p task, s.proc p = some task → VmaInv task.vmaHead)
      ?_ ?_
    · intro p task hp
      rw [hstart.idle p] at hp
      cases hp
    · rintro s op s' h ⟨-, hkeeps⟩ hstep p task hp
      exact VmaInv.edited (SysOp.step_edited hstep hp) h hkeeps
  exact (hall p task hp).wellFormed

theorem smallFile_apart : FileApart (smallFile 6) := by
  have hall : (elfHeader (smallFile 6)).all fun header => decide
      ((loadHeaders (smallFile 6) header (List.range header.ePhnum)).map Elf32Phdr.vma =
        [⟨0x08048000, 0x08049000, 3#32⟩]) := by decide +kernel
  intro header hacc
  rw [hacc.found, Option.all_some, decide_eq_true_eq] at hall
  obtain ⟨ph, rest, hsegments, hvma, hrest⟩ := List.map_eq_cons_iff.mp hall
  rw [List.map_eq_nil_iff] at hrest
  rw [hsegments, hrest]
  refine ⟨?_, List.pairwise_singleton _ _, ?_, ?_⟩
  all_goals
    intro h hh
    rw [List.mem_singleton.mp hh, hvma]
  · decide
  · exact Or.inl (by unfold IntervalList.Precedes; decide)
  · exact Or.inl (by unfold IntervalList.Precedes; decide)

/-- The first process of the small machine. -/
theorem vmas_well_formed_sample :
    ∃ s task, SmallInit 3#32 s ∧ s.proc 4107 = some task ∧ VmasWellFormed task.vmaHead := by
  obtain ⟨s₀, s, hboot, hstep, hsmall⟩ := smallInit_rw
  have hinit : (SysOp.startInit (smallFile 6) []).Possible s₀ ∧
      (SysOp.startInit (smallFile 6) []).KeepsApart s₀ := ⟨trivial, smallFile_apart⟩
  exact ⟨s, _, hsmall, hsmall.task,
    vmas_well_formed hboot (.next .start hinit hstep) hsmall.task⟩

/-- The areas of the first process of the small machine after a break of 1. -/
def brokenVmas : List Vma :=
  [⟨0x08048000, 0x08049000, 3#32⟩, ⟨0x10000000, 1, 3#32⟩, ⟨0xBFFEF000, 0xBFFFF000, 3#32⟩]

theorem brk_one_reached : ∃ s₀ s task,
    (∃ image info ram, System.boot image info ram = some s₀) ∧
      Reach SysOp.step (fun s op => op.Possible s) s₀ s ∧ s.proc 4107 = some task ∧
      task.vmaHead = brokenVmas := by
  obtain ⟨s₀, s, hboot, hstep, hsmall⟩ := smallInit_rw
  have hrun := hsmall.running
  have hbrk : (sysBrk s.machine.pmm (smallVmas 3#32) 1 []).1 = brokenVmas := rfl
  have hnext : SysOp.step s (.brk 4107 1 []) = some (s.setVmas 4107
      ⟨⟨some 4100, smallVmas 3#32⟩, kernelStackTop 0⟩ brokenVmas) := by
    simp only [SysOp.step, hrun, hbrk]
  have hinit : (SysOp.startInit (smallFile 6) []).Possible s₀ := trivial
  have hargs : (SysOp.brk 4107 1 []).Possible s := by
    show 1 < 4294967296
    decide
  have hproc : (s.setVmas 4107 ⟨⟨some 4100, smallVmas 3#32⟩, kernelStackTop 0⟩ brokenVmas).proc
      4107 = some ⟨⟨some 4100, brokenVmas⟩, kernelStackTop 0⟩ := by
    rw [System.setVmas, System.setProc_proc, if_pos rfl]
  exact ⟨s₀, _, _, ⟨_, _, _, hboot⟩, .next (.next .start hinit hstep) hargs hnext, hproc, rfl⟩

/-- A break below the start of the heap turns the heap area around. -/
theorem brk_inverts_heap : ¬ ∀ (image : BootImage) (info : BootInfo)
    (ram : Nat → Nat → Word) (s₀ s : System), System.boot image info ram = some s₀ →
    Reach SysOp.step (fun s op => op.Possible s) s₀ s → ∀ p task, s.proc p = some task →
    VmasWellFormed task.vmaHead := by
  intro hall
  obtain ⟨s₀, s, task, ⟨image, info, ram, hboot⟩, hrun, hp, hvmas⟩ := brk_one_reached
  have hwf := hall image info ram s₀ s hboot hrun 4107 task hp
  rw [hvmas] at hwf
  have hle := hwf.le ⟨0x10000000, 1, 3#32⟩ (by simp [brokenVmas])
  exact absurd hle (by decide)

/-- A break that is not at a page: the child gets an area that ends at the next page. -/
theorem fork_rounds_break : ¬ ∀ (image : BootImage) (info : BootInfo)
    (ram : Nat → Nat → Word) (s₀ s : System), System.boot image info ram = some s₀ →
    Reach SysOp.step (fun s op => op.Possible s) s₀ s → ∀ p task, s.proc p = some task →
    ∀ k, (vmaClone task.vmaHead k).2.1 = 0 → (vmaClone task.vmaHead k).1 = task.vmaHead := by
  intro hall
  obtain ⟨s₀, s, task, ⟨image, info, ram, hboot⟩, hrun, hp, hvmas⟩ := brk_one_reached
  have heq := hall image info ram s₀ s hboot hrun 4107 task hp []
  rw [hvmas] at heq
  exact absurd (heq (by decide)) (by decide)

end EnclaveOS
