import EnclaveOS.Memory.PagingSpec
import EnclaveOS.Memory.KernelStack

/-!
# KernelHalf - the kernel's own tables

The upper quarter of the kernel's directory: its tables belong to the kernel and
to one directory entry each, the direct map has a table everywhere, and the data
pages of every allocated kernel stack are mapped to frames of their own.  Kernel
stacks are allocated and freed without touching a user mapping.
-/

namespace EnclaveOS

open PageWord RefCount

/-- Address of page `p` of a slot. -/
def stackVirt (slot p : Nat) : Nat := kernelStackBase slot + p * 4096

/-- The entry of a kernel address in the kernel's own directory. -/
def kernelPte (m : Machine) (virt : Nat) : Word :=
  m.pteAt m.bootPageDirectory (dirIndex virt) (tableIndex virt)

/-- The kernel's tables, with the stack pages named by `stackPage` in use. -/
structure KernelHalf (m : Machine) (own : Nat → Owner) (stackPage : Nat → Nat → Prop) : Prop where
  table : ∀ i, 768 ≤ i → i < 1024 → isPresent (m.mem m.bootPageDirectory i) = true →
    own (frameOf (m.mem m.bootPageDirectory i)) = .kernel .reserved ∧
      frameOf (m.mem m.bootPageDirectory i) ≠ m.bootPageDirectory
  inj : ∀ i i', 768 ≤ i → i < 1024 → 768 ≤ i' → i' < 1024 →
    isPresent (m.mem m.bootPageDirectory i) = true →
    isPresent (m.mem m.bootPageDirectory i') = true →
    frameOf (m.mem m.bootPageDirectory i) = frameOf (m.mem m.bootPageDirectory i') → i = i'
  direct : ∀ i, 768 ≤ i → i < 896 → isPresent (m.mem m.bootPageDirectory i) = true
  stack : ∀ slot p, stackPage slot p →
    slot < kernelStackSlots ∧ 1 ≤ p ∧ p ≤ 4 ∧ isPresent (kernelPte m (stackVirt slot p)) = true ∧
      own (frameOf (kernelPte m (stackVirt slot p))) = .kernel (.stack slot p)

/-- The stack pages in use between two operations: the data pages of every slot
whose bit is set. -/
def stacksInUse (m : Machine) (slot p : Nat) : Prop :=
  slot < kernelStackSlots ∧ m.kstackBitmap slot = true ∧ 1 ≤ p ∧ p ≤ 4

/-- What an operation of the kernel on its own tables keeps. -/
structure KernelStep (m : Machine) (own : Nat → Owner) (m' : Machine) (own' : Nat → Owner) :
    Prop where
  boot : m'.bootPageDirectory = m.bootPageDirectory
  bootMem : m'.mem m.bootPageDirectory = m.mem m.bootPageDirectory
  /-- Tables above the direct map are not written. -/
  high : ∀ i, 896 ≤ i → i < 1024 → isPresent (m.mem m.bootPageDirectory i) = true →
    m'.mem (frameOf (m.mem m.bootPageDirectory i)) = m.mem (frameOf (m.mem m.bootPageDirectory i))
  reserved : ∀ f, own f = .kernel .reserved → own' f = .kernel .reserved
  pcb : ∀ f, own f = .kernel .pcb → own' f = .kernel .pcb

namespace KernelStep

variable {m m' m'' : Machine} {own own' own'' : Nat → Owner}

theorem refl (m : Machine) (own : Nat → Owner) : KernelStep m own m own :=
  ⟨rfl, rfl, fun _ _ _ _ => rfl, fun _ h => h, fun _ h => h⟩

theorem trans (h : KernelStep m own m' own') (h' : KernelStep m' own' m'' own'') :
    KernelStep m own m'' own'' where
  boot := h'.boot.trans h.boot
  bootMem := by
    have := h'.bootMem
    rw [h.boot] at this
    exact this.trans h.bootMem
  high i hi hi' hpres := by
    have := h'.high i hi hi'
    rw [h.boot, h.bootMem] at this
    exact (this hpres).trans (h.high i hi hi' hpres)
  reserved f hf := h'.reserved f (h.reserved f hf)
  pcb f hf := h'.pcb f (h.pcb f hf)

/-- Handing over a frame that is neither reserved nor a control block. -/
theorem retag {f : Nat} {o : Owner} (p : Pmm) (hres : own f ≠ .kernel .reserved)
    (hpcb : own f ≠ .kernel .pcb) :
    KernelStep m own (m.withPmm p) (Function.update own f o) := by
  refine ⟨rfl, rfl, fun _ _ _ _ => rfl, fun g hg => ?_, fun g hg => ?_⟩
  · rw [Function.update_of_ne (by rintro rfl; exact hres hg), hg]
  · rw [Function.update_of_ne (by rintro rfl; exact hpcb hg), hg]

end KernelStep

theorem stackVirt_index {slot p : Nat} (hslot : slot < kernelStackSlots) (hp : p ≤ 4) :
    768 ≤ dirIndex (stackVirt slot p) ∧ dirIndex (stackVirt slot p) < 896 := by
  have hslots : kernelStackSlots = 819 := by decide
  have hbase : stackVirt slot p = 0xC8000000 + slot * 20480 + p * 4096 := rfl
  unfold dirIndex
  omega

/-- Different stack pages have different entries. -/
theorem stackVirt_inj {slot p slot' p' : Nat} (hp : p ≤ 4) (hp' : p' ≤ 4)
    (hdir : dirIndex (stackVirt slot p) = dirIndex (stackVirt slot' p'))
    (htable : tableIndex (stackVirt slot p) = tableIndex (stackVirt slot' p')) :
    slot = slot' ∧ p = p' := by
  have hbase : stackVirt slot p = 0xC8000000 + slot * 20480 + p * 4096 := rfl
  have hbase' : stackVirt slot' p' = 0xC8000000 + slot' * 20480 + p' * 4096 := rfl
  unfold dirIndex tableIndex at *
  omega

namespace KernelHalf

variable {m m' : Machine} {own own' : Nat → Owner} {R R' : Nat → Nat → Prop}

theorem mono (h : KernelHalf m own R) (hR : ∀ slot p, R' slot p → R slot p) :
    KernelHalf m own R' :=
  ⟨h.table, h.inj, h.direct, fun slot p hp => h.stack slot p (hR slot p hp)⟩

/-- The entries of the direct map lie in kernel frames. -/
theorem kernelPte_frame (h : KernelHalf m own R)
    (hboot : own m.bootPageDirectory = .kernel .reserved)
    (hk : KernelFrame m own m' own') {virt : Nat} (hlo : 768 ≤ dirIndex virt)
    (hhi : dirIndex virt < 896) : kernelPte m' virt = kernelPte m virt := by
  unfold kernelPte Machine.pteAt
  rw [hk.boot, hk.mem _ _ hboot, hk.mem _ _ (h.table _ hlo (by omega) (h.direct _ hlo hhi)).1]

/-- Everything the invariant says is about kernel frames. -/
theorem frame (h : KernelHalf m own R) (hboot : own m.bootPageDirectory = .kernel .reserved)
    (hk : KernelFrame m own m' own') : KernelHalf m' own' R := by
  have hmem : m'.mem m.bootPageDirectory = m.mem m.bootPageDirectory := hk.mem _ _ hboot
  refine ⟨?_, ?_, ?_, ?_⟩
  · intro i hi hi' hpres
    rw [hk.boot, hmem] at hpres ⊢
    obtain ⟨hown, hne⟩ := h.table i hi hi' hpres
    exact ⟨(hk.owner _ _).mp hown, hne⟩
  · rw [hk.boot, hmem]
    exact h.inj
  · rw [hk.boot, hmem]
    exact h.direct
  · intro slot p hp
    obtain ⟨hslot, hp₁, hp₄, hpres, hown⟩ := h.stack slot p hp
    obtain ⟨hlo, hhi⟩ := stackVirt_index hslot hp₄
    rw [h.kernelPte_frame hboot hk hlo hhi]
    exact ⟨hslot, hp₁, hp₄, hpres, (hk.owner _ _).mp hown⟩

variable (own' R') in
/-- Writing the entry of a direct-map address. -/
theorem writePte (h : KernelHalf m own R) {virt : Nat} {w : Word} {p : Pmm}
    (hlo : 768 ≤ dirIndex virt) (hhi : dirIndex virt < 896)
    (hreserved : ∀ f, own f = .kernel .reserved → own' f = .kernel .reserved)
    (hpcb : ∀ f, own f = .kernel .pcb → own' f = .kernel .pcb)
    (hR : ∀ slot q, R' slot q →
      R slot q ∧ ¬ (dirIndex (stackVirt slot q) = dirIndex virt ∧
        tableIndex (stackVirt slot q) = tableIndex virt) ∧
        own' (frameOf (kernelPte m (stackVirt slot q))) = .kernel (.stack slot q) ∨
      slot < kernelStackSlots ∧ 1 ≤ q ∧ q ≤ 4 ∧ stackVirt slot q = virt ∧ isPresent w = true ∧
        own' (frameOf w) = .kernel (.stack slot q)) :
    KernelHalf ((m.withPmm p).setWord (frameOf (m.mem m.bootPageDirectory (dirIndex virt)))
        (tableIndex virt) w) own' R' ∧
      KernelStep m own ((m.withPmm p).setWord (frameOf (m.mem m.bootPageDirectory (dirIndex virt)))
        (tableIndex virt) w) own' := by
  have hpres := h.direct _ hlo hhi
  obtain ⟨hown, hne⟩ := h.table _ hlo (by omega) hpres
  set t := frameOf (m.mem m.bootPageDirectory (dirIndex virt)) with ht
  have hboot : ((m.withPmm p).setWord t (tableIndex virt) w).mem m.bootPageDirectory =
      m.mem m.bootPageDirectory :=
    Machine.setWord_mem_of_ne (m := m.withPmm p) (Ne.symm hne) _ _
  constructor
  · refine ⟨?_, ?_, ?_, ?_⟩
    · intro i hi hi' hpres'
      rw [Machine.setWord_boot, Machine.withPmm_boot, hboot] at hpres' ⊢
      obtain ⟨hown', hne'⟩ := h.table i hi hi' hpres'
      exact ⟨hreserved _ hown', hne'⟩
    · rw [Machine.setWord_boot, Machine.withPmm_boot, hboot]
      exact h.inj
    · rw [Machine.setWord_boot, Machine.withPmm_boot, hboot]
      exact h.direct
    · intro slot q hq
      have hpte : kernelPte ((m.withPmm p).setWord t (tableIndex virt) w) (stackVirt slot q) =
          if frameOf (m.mem m.bootPageDirectory (dirIndex (stackVirt slot q))) = t ∧
            tableIndex (stackVirt slot q) = tableIndex virt then w
          else kernelPte m (stackVirt slot q) := by
        unfold kernelPte Machine.pteAt
        rw [Machine.setWord_boot, Machine.withPmm_boot, hboot, Machine.setWord_mem]
        rfl
      rw [hpte]
      rcases hR slot q hq with ⟨hold, hother, hown'⟩ | ⟨hslot, hq₁, hq₄, hvirt, hw, hown'⟩
      · obtain ⟨hslot, hq₁, hq₄, hpresq, -⟩ := h.stack slot q hold
        obtain ⟨hlo', hhi'⟩ := stackVirt_index hslot hq₄
        rw [if_neg]
        · exact ⟨hslot, hq₁, hq₄, hpresq, hown'⟩
        · rintro ⟨heq, hidx⟩
          exact hother ⟨h.inj _ _ hlo' (by omega) hlo (by omega) (h.direct _ hlo' hhi') hpres heq,
            hidx⟩
      · rw [if_pos (by rw [hvirt]; exact ⟨rfl, rfl⟩)]
        exact ⟨hslot, hq₁, hq₄, hw, hown'⟩
  · refine ⟨rfl, hboot, ?_, hreserved, hpcb⟩
    intro i hi hi' hpres'
    apply Machine.setWord_mem_of_ne (m := m.withPmm p)
    intro heq
    have := h.inj i _ (by omega) hi' hlo (by omega) hpres' hpres heq
    omega

end KernelHalf

namespace VmInv

variable {m : Machine} {pds : Finset Nat} {own : Nat → Owner}

/-- Writing into a table of the kernel. -/
theorem kernelWrite (h : VmInv m pds own) {t : Nat} {use : KernelUse} (ht : own t = .kernel use)
    (hne : t ≠ m.bootPageDirectory) (j : Nat) (w : Word) : VmInv (m.setWord t j w) pds own := by
  refine h.congrMem (m.setWord t j w) rfl rfl ?_ ?_
  · exact Machine.setWord_mem_of_ne (Ne.symm hne) _ _
  · intro f hf
    apply Machine.setWord_mem_of_ne
    rintro rfl
    rw [ht] at hf
    simp at hf

/-- A held frame becomes the kernel's. -/
theorem holdToKernel (h : VmInv m pds own) {n : Nat} (hn : own n = .held) (use : KernelUse) :
    VmInv m pds (Function.update own n (.kernel use)) := by
  have hbit := h.bit_set (by rw [hn]; rintro ⟨⟩) (h.lt_limit (by rw [hn]; rintro use ⟨⟩))
  apply h.retagIdle (p := m.pmm) (Or.inr hn) (by rintro ⟨⟩) rfl (fun g _ => ⟨rfl, rfl⟩)
  · simp [hbit]
  · simp

/-- A frame of the kernel that is not reserved goes back to the pool. -/
theorem freeKernel (h : VmInv m pds own) {n : Nat} {use : KernelUse} (hn : own n = .kernel use)
    (huse : use ≠ .reserved) :
    VmInv (m.freePage (frameAddr n)) pds (Function.update own n .free) := by
  have hres : own n ≠ .kernel .reserved := by
    rw [hn]
    rintro ⟨⟩
    exact huse rfl
  have hlimit : n < m.pmm.maxPage := by
    by_contra hge
    exact hres (h.beyond n (Nat.not_lt.mp hge))
  have hbit := h.bit_set (by rw [hn]; rintro ⟨⟩) hlimit
  have hfree : pmmFreePage m.pmm (frameAddr n) = m.pmm.release n := by
    rw [pmmFreePage_frameAddr _ (lt_of_lt_of_le hlimit h.limit), if_pos ⟨hlimit, hbit⟩]
  unfold Machine.freePage
  rw [hfree]
  refine h.retag (p := m.pmm.release n) hlimit ?_ ?_ ?_ ?_ ?_ (by rintro ⟨⟩) rfl ?_ (by simp)
    (by simp)
  · rintro rfl
    exact hres h.zero
  · rintro rfl
    exact hres h.boot
  · rw [hn]
    rintro ⟨⟩
  · intro hmem
    rw [h.dir n hmem] at hn
    cases hn
  · intro pd hpd i hi hpres heq
    have htable := h.table pd hpd i hi hpres
    rw [heq, hn] at htable
    cases htable
  · intro g hg
    simp [Function.update_of_ne hg]

end VmInv

section StackPages

variable {m : Machine} {pds : Finset Nat} {own : Nat → Owner} {R : Nat → Nat → Prop}

/-- A kernel mapping below the end of the direct map needs no new table. -/
theorem vmmMapPage_eq {m : Machine} {virt : Nat} (phys flags : Word)
    (hpres : isPresent (m.mem m.bootPageDirectory (dirIndex virt)) = true) :
    vmmMapPage m virt phys flags =
      some (m.setWord (frameOf (m.mem m.bootPageDirectory (dirIndex virt))) (tableIndex virt)
        (phys ||| flags)) := by
  unfold vmmMapPage ensureTable
  rw [if_pos hpres]

theorem kernelMapFlags : MapFlags (pagePresent ||| pageWrite) :=
  ⟨by decide, by decide, by decide⟩

/-- Mapping a held frame at a page of a stack. -/
theorem mapStackPage_spec (h : VmInv m pds own) (hk : KernelHalf m own R) {slot p n : Nat}
    (hslot : slot < kernelStackSlots) (hp₁ : 1 ≤ p) (hp₄ : p ≤ 4) (hn : own n = .held) :
    ∃ m' own', vmmMapPage m (stackVirt slot p) (frameAddr n) (pagePresent ||| pageWrite) =
        some m' ∧ VmInv m' pds own' ∧
      KernelHalf m' own' (fun s q => R s q ∨ s = slot ∧ q = p) ∧ KernelStep m own m' own' ∧
      m'.kstackBitmap = m.kstackBitmap := by
  obtain ⟨hlo, hhi⟩ := stackVirt_index hslot hp₄
  have hpres := hk.direct _ hlo hhi
  obtain ⟨htable, hne⟩ := hk.table _ hlo (by omega) hpres
  have hmax : n < 1048576 := h.lt_maxPages (by rw [hn]; rintro use ⟨⟩)
  have hother : ∀ f use, own f = .kernel use →
      Function.update own n (.kernel (.stack slot p)) f = .kernel use := by
    intro f use hf
    rw [Function.update_of_ne (by rintro rfl; rw [hn] at hf; cases hf), hf]
  rw [vmmMapPage_eq _ _ hpres]
  obtain ⟨hhalf, hstep⟩ := hk.writePte (Function.update own n (.kernel (.stack slot p)))
    (fun s q => R s q ∨ s = slot ∧ q = p) (p := m.pmm)
    (w := frameAddr n ||| (pagePresent ||| pageWrite)) hlo hhi
    (fun f hf => hother f _ hf) (fun f hf => hother f _ hf) (by
      intro s q hq
      by_cases hsame : s = slot ∧ q = p
      · obtain ⟨rfl, rfl⟩ := hsame
        refine Or.inr ⟨hslot, hp₁, hp₄, rfl, kernelMapFlags.mapped n, ?_⟩
        rw [kernelMapFlags.frame hmax, Function.update_self]
      · have hold : R s q := hq.resolve_right hsame
        obtain ⟨-, -, hq₄, -, hown⟩ := hk.stack s q hold
        exact Or.inl ⟨hold, fun heq => hsame (stackVirt_inj hq₄ hp₄ heq.1 heq.2),
          hother _ _ hown⟩)
  exact ⟨_, _, rfl, (h.kernelWrite htable hne _ _).holdToKernel hn _, hhalf, hstep, rfl⟩

/-- Freeing a page of a stack. -/
theorem freeStackPage_spec (h : VmInv m pds own) (hk : KernelHalf m own R) {slot p : Nat}
    (hR : R slot p) :
    ∃ own', VmInv (freeStackPage m (stackVirt slot p)) pds own' ∧
      KernelHalf (freeStackPage m (stackVirt slot p)) own'
        (fun s q => R s q ∧ ¬ (s = slot ∧ q = p)) ∧
      KernelStep m own (freeStackPage m (stackVirt slot p)) own' ∧
      (freeStackPage m (stackVirt slot p)).kstackBitmap = m.kstackBitmap := by
  obtain ⟨hslot, hp₁, hp₄, hpres, hown⟩ := hk.stack slot p hR
  obtain ⟨hlo, hhi⟩ := stackVirt_index hslot hp₄
  have hpde := hk.direct _ hlo hhi
  obtain ⟨htable, hne⟩ := hk.table _ hlo (by omega) hpde
  have hother : ∀ f use, own f = .kernel use → use ≠ .stack slot p →
      Function.update own (frameOf (kernelPte m (stackVirt slot p))) .free f = .kernel use := by
    intro f use hf huse
    rw [Function.update_of_ne, hf]
    rintro rfl
    rw [hown] at hf
    cases hf
    exact huse rfl
  have hres : freeStackPage m (stackVirt slot p) =
      (m.freePage (frameAddr (frameOf (kernelPte m (stackVirt slot p))))).setWord
        (frameOf (m.mem m.bootPageDirectory (dirIndex (stackVirt slot p))))
        (tableIndex (stackVirt slot p)) 0#32 := by
    have hpres' : isPresent (m.mem (frameOf (m.mem m.bootPageDirectory
        (dirIndex (stackVirt slot p)))) (tableIndex (stackVirt slot p))) = true := hpres
    unfold freeStackPage
    dsimp only
    rw [if_pos hpres', ← physOf_eq_frameAddr]
    rfl
  obtain ⟨hhalf, hstep⟩ := hk.writePte
    (Function.update own (frameOf (kernelPte m (stackVirt slot p))) .free)
    (fun s q => R s q ∧ ¬ (s = slot ∧ q = p))
    (p := pmmFreePage m.pmm (frameAddr (frameOf (kernelPte m (stackVirt slot p))))) (w := 0#32)
    hlo hhi
    (fun f hf => hother f _ hf (by rintro ⟨⟩)) (fun f hf => hother f _ hf (by rintro ⟨⟩)) (by
      intro s q hq
      obtain ⟨-, -, hq₄, -, hownq⟩ := hk.stack s q hq.1
      refine Or.inl ⟨hq.1, fun heq => hq.2 (stackVirt_inj hq₄ hp₄ heq.1 heq.2),
        hother _ _ hownq ?_⟩
      rintro ⟨⟩
      exact hq.2 ⟨rfl, rfl⟩)
  rw [hres]
  refine ⟨_, ?_, hhalf, hstep, rfl⟩
  exact (h.freeKernel hown (by rintro ⟨⟩)).kernelWrite
    (hother _ _ htable (by rintro ⟨⟩)) hne _ _

/-- Freeing several pages of one stack. -/
theorem foldl_freeStackPage_spec (h : VmInv m pds own) (slot : Nat) {l : List Nat}
    (hk : KernelHalf m own R) (hl : ∀ p ∈ l, R slot p) (hnodup : l.Nodup) :
    ∃ own', VmInv (l.foldl (fun m p => freeStackPage m (stackVirt slot p)) m) pds own' ∧
      KernelHalf (l.foldl (fun m p => freeStackPage m (stackVirt slot p)) m) own'
        (fun s q => R s q ∧ ¬ (s = slot ∧ q ∈ l)) ∧
      KernelStep m own (l.foldl (fun m p => freeStackPage m (stackVirt slot p)) m) own' ∧
      (l.foldl (fun m p => freeStackPage m (stackVirt slot p)) m).kstackBitmap =
        m.kstackBitmap := by
  induction l generalizing m own R with
  | nil => exact ⟨own, h, hk.mono fun s q hq => hq.1, KernelStep.refl m own, rfl⟩
  | cons p rest ih =>
    obtain ⟨hp, hrest⟩ := List.nodup_cons.mp hnodup
    obtain ⟨own₁, h₁, hk₁, hs₁, hb₁⟩ := freeStackPage_spec h hk (hl p List.mem_cons_self)
    obtain ⟨own₂, h₂, hk₂, hs₂, hb₂⟩ := ih h₁ hk₁
      (fun q hq => ⟨hl q (List.mem_cons_of_mem _ hq), fun heq => hp (heq.2 ▸ hq)⟩) hrest
    refine ⟨own₂, h₂, hk₂.mono ?_, hs₁.trans hs₂, hb₂.trans hb₁⟩
    rintro s q ⟨hq, hnot⟩
    refine ⟨⟨hq, fun heq => hnot ⟨heq.1, by rw [heq.2]; exact List.mem_cons_self⟩⟩, fun heq => ?_⟩
    exact hnot ⟨heq.1, List.mem_cons_of_mem _ heq.2⟩

end StackPages

section Allocator

variable {m : Machine} {pds : Finset Nat} {own : Nat → Owner} {R : Nat → Nat → Prop}

theorem VmInv.setSlot (h : VmInv m pds own) (slot : Nat) (used : Bool) :
    VmInv (m.setSlot slot used) pds own :=
  h.congrMem _ rfl rfl rfl fun _ _ => rfl

theorem KernelHalf.setSlot (h : KernelHalf m own R) (slot : Nat) (used : Bool) :
    KernelHalf (m.setSlot slot used) own R :=
  ⟨h.table, h.inj, h.direct, h.stack⟩

theorem KernelStep.setSlot (m : Machine) (own : Nat → Owner) (slot : Nat) (used : Bool) :
    KernelStep m own (m.setSlot slot used) own :=
  ⟨rfl, rfl, fun _ _ _ _ => rfl, fun _ h => h, fun _ h => h⟩

/-- The mapping loop from page `p` on: the whole stack, or none of it. -/
theorem mapStackPages_spec (h : VmInv m pds own) {slot p : Nat} (hslot : slot < kernelStackSlots)
    (hp : 1 ≤ p) (hp₅ : p ≤ 5) (hk : KernelHalf m own fun s q => R s q ∨ s = slot ∧ 1 ≤ q ∧ q < p)
    (hR : ∀ q, ¬ R slot q) :
    (∃ m' own', mapStackPages slot (List.range' p (5 - p)) m =
        .allocated m' (kernelStackTop slot) ∧ VmInv m' pds own' ∧
      KernelHalf m' own' (fun s q => R s q ∨ s = slot ∧ 1 ≤ q ∧ q ≤ 4) ∧
      KernelStep m own m' own' ∧ m'.kstackBitmap = m.kstackBitmap) ∨
    (∃ m' own', mapStackPages slot (List.range' p (5 - p)) m = .failed m' ∧ VmInv m' pds own' ∧
      KernelHalf m' own' R ∧ KernelStep m own m' own' ∧
      m'.kstackBitmap = Function.update m.kstackBitmap slot false) := by
  obtain ⟨d, hd⟩ : ∃ d, 5 - p = d := ⟨_, rfl⟩
  induction d generalizing m own p with
  | zero =>
    rw [hd]
    refine Or.inl ⟨m, own, rfl, h, hk.mono ?_, KernelStep.refl m own, rfl⟩
    rintro s q (hq | ⟨rfl, hq₁, hq₄⟩)
    · exact Or.inl hq
    · exact Or.inr ⟨rfl, hq₁, by omega⟩
  | succ d ih =>
    rw [hd, List.range'_succ, mapStackPages]
    rcases h.allocPage with halloc | ⟨n, hfree, hmax, hnz, halloc, hheld, hkernel⟩
    · -- no memory: the pages mapped so far go back
      rw [halloc]
      obtain ⟨own₁, h₁, hk₁, hs₁, hb₁⟩ := foldl_freeStackPage_spec h slot
        (l := List.range' 1 (p - 1)) hk
        (fun q hq => Or.inr ⟨rfl, by rw [List.mem_range'_1] at hq; omega⟩) List.nodup_range'
      refine Or.inr ⟨_, own₁, rfl, h₁.setSlot slot false, (hk₁.mono ?_).setSlot slot false,
        hs₁.trans (KernelStep.setSlot _ _ _ _), ?_⟩
      · intro s q hq
        exact ⟨Or.inl hq, fun heq => hR q (heq.1 ▸ hq)⟩
      · exact congrArg (fun b => Function.update b slot false) hb₁
    · rw [halloc]
      simp only [hnz, if_false]
      have hhalf := hk.frame h.boot hkernel
      obtain ⟨m₂, own₂, hmap, h₂, hk₂, hs₂, hb₂⟩ := mapStackPage_spec hheld hhalf hslot hp
        (by omega : p ≤ 4) (Function.update_self n Owner.held own)
      have hmap' : vmmMapPage (m.withPmm (m.pmm.take n)) (kernelStackBase slot + p * 4096)
          (frameAddr n) (pagePresent ||| pageWrite) = some m₂ := hmap
      rw [hmap']
      have hs₁ : KernelStep m own (m.withPmm (m.pmm.take n)) (Function.update own n .held) :=
        KernelStep.retag _ (by rw [hfree]; rintro ⟨⟩) (by rw [hfree]; rintro ⟨⟩)
      have hnext := ih (p := p + 1) h₂ (by omega) (by omega) (hk₂.mono (by
        rintro s q (hq | ⟨rfl, hq₁, hq₂⟩)
        · exact Or.inl (Or.inl hq)
        · by_cases hqp : q = p
          · exact Or.inr ⟨rfl, hqp⟩
          · exact Or.inl (Or.inr ⟨rfl, hq₁, by omega⟩))) (by omega)
      have hd' : 5 - (p + 1) = d := by omega
      rw [hd'] at hnext
      rcases hnext with ⟨m₃, own₃, hres, h₃, hk₃, hs₃, hb₃⟩ | ⟨m₃, own₃, hres, h₃, hk₃, hs₃, hb₃⟩
      · exact Or.inl ⟨m₃, own₃, hres, h₃, hk₃, (hs₁.trans hs₂).trans hs₃, hb₃.trans hb₂⟩
      · exact Or.inr ⟨m₃, own₃, hres, h₃, hk₃, (hs₁.trans hs₂).trans hs₃, by rw [hb₃, hb₂]; rfl⟩

/-- Clearing the guard page. -/
theorem unmapGuard_spec (h : VmInv m pds own) (hk : KernelHalf m own R) {slot : Nat}
    (hslot : slot < kernelStackSlots) :
    VmInv (vmmUnmapPageInPd m m.bootPageDirectory (kernelStackBase slot)) pds own ∧
      KernelHalf (vmmUnmapPageInPd m m.bootPageDirectory (kernelStackBase slot)) own R ∧
      KernelStep m own (vmmUnmapPageInPd m m.bootPageDirectory (kernelStackBase slot)) own ∧
      (vmmUnmapPageInPd m m.bootPageDirectory (kernelStackBase slot)).kstackBitmap =
        m.kstackBitmap := by
  have hvirt : kernelStackBase slot = stackVirt slot 0 := rfl
  obtain ⟨hlo, hhi⟩ := stackVirt_index hslot (p := 0) (by omega)
  have hpde := hk.direct _ hlo hhi
  obtain ⟨htable, hne⟩ := hk.table _ hlo (by omega) hpde
  unfold vmmUnmapPageInPd
  rw [hvirt]
  simp only [hpde, Bool.not_true, Bool.false_eq_true, if_false]
  split_ifs
  · obtain ⟨hhalf, hstep⟩ := hk.writePte own R (p := m.pmm) (w := 0#32) hlo hhi
      (fun _ hf => hf) (fun _ hf => hf) (by
        intro s q hq
        obtain ⟨-, hq₁, hq₄, -, hown⟩ := hk.stack s q hq
        refine Or.inl ⟨hq, fun heq => ?_, hown⟩
        have := (stackVirt_inj hq₄ (by omega) heq.1 heq.2).2
        omega)
    exact ⟨h.kernelWrite htable hne _ _, hhalf, hstep, rfl⟩
  · exact ⟨h, hk, KernelStep.refl m own, rfl⟩

/-- `vmm_alloc_kernel_stack` gives out an unused slot or changes nothing
visible; it never halts. -/
theorem vmmAllocKernelStack_spec (h : VmInv m pds own) (hk : KernelHalf m own (stacksInUse m)) :
    (∃ m' own' slot, vmmAllocKernelStack m = .allocated m' (kernelStackTop slot) ∧
      slot < kernelStackSlots ∧ m.kstackBitmap slot = false ∧
      m'.kstackBitmap = Function.update m.kstackBitmap slot true ∧
      VmInv m' pds own' ∧ KernelHalf m' own' (stacksInUse m') ∧ KernelStep m own m' own') ∨
    (∃ m' own', vmmAllocKernelStack m = .failed m' ∧ m'.kstackBitmap = m.kstackBitmap ∧
      VmInv m' pds own' ∧ KernelHalf m' own' (stacksInUse m') ∧ KernelStep m own m' own') := by
  unfold vmmAllocKernelStack
  cases hfind : (List.range kernelStackSlots).find? fun i => !m.kstackBitmap i with
  | none => exact Or.inr ⟨m, own, rfl, rfl, h, hk, KernelStep.refl m own⟩
  | some slot =>
    have hslot : slot < kernelStackSlots := List.mem_range.mp (List.mem_of_find?_eq_some hfind)
    have hclear : m.kstackBitmap slot = false := by
      have := List.find?_some hfind
      simpa using this
    have hnone : ∀ q, ¬ stacksInUse m slot q := by
      rintro q ⟨-, hbit, -⟩
      rw [hclear] at hbit
      cases hbit
    have hguard := unmapGuard_spec (m := m.setSlot slot true) (h.setSlot slot true)
      (hk.setSlot slot true) hslot
    rw [show (m.setSlot slot true).bootPageDirectory = m.bootPageDirectory from rfl] at hguard
    obtain ⟨h₁, hk₁, hs₁, hb₁⟩ := hguard
    set m₁ := vmmUnmapPageInPd (m.setSlot slot true) m.bootPageDirectory (kernelStackBase slot)
      with hm₁
    have hstep := (KernelStep.setSlot m own slot true).trans hs₁
    rcases mapStackPages_spec (R := stacksInUse m) h₁ hslot le_rfl (by omega) (hk₁.mono (by
        rintro s q (hq | ⟨-, hq₁, hq₂⟩)
        · exact hq
        · omega)) hnone with
      ⟨m₂, own₂, hres, h₂, hk₂, hs₂, hb₂⟩ | ⟨m₂, own₂, hres, h₂, hk₂, hs₂, hb₂⟩
    · have hbits : m₂.kstackBitmap = Function.update m.kstackBitmap slot true := hb₂.trans hb₁
      refine Or.inl ⟨m₂, own₂, slot, hres, hslot, hclear, hbits, h₂, hk₂.mono ?_,
        hstep.trans hs₂⟩
      rintro s q ⟨hs, hbit, hq⟩
      rw [hbits] at hbit
      by_cases hsame : s = slot
      · exact Or.inr ⟨hsame, hq⟩
      · rw [Function.update_of_ne hsame] at hbit
        exact Or.inl ⟨hs, hbit, hq⟩
    · have hbits : m₂.kstackBitmap = m.kstackBitmap := by
        rw [hb₂, hb₁]
        change Function.update (Function.update m.kstackBitmap slot true) slot false = _
        rw [Function.update_idem, ← hclear, Function.update_eq_self]
      refine Or.inr ⟨m₂, own₂, hres, hbits, h₂, hk₂.mono ?_, hstep.trans hs₂⟩
      rintro s q ⟨hs, hbit, hq⟩
      rw [hbits] at hbit
      exact ⟨hs, hbit, hq⟩

/-- The top of a stack leads back to its slot. -/
theorem vmmFreeKernelStack_eq (m : Machine) {slot : Nat} (hslot : slot < kernelStackSlots) :
    vmmFreeKernelStack m (kernelStackTop slot) =
      [1, 2, 3, 4].foldl (fun m p =>
          if isPresent (m.mem m.bootPageDirectory
              (dirIndex (kernelStackBase slot + p * 4096))) then
            freeStackPage m (kernelStackBase slot + p * 4096)
          else m) (m.setSlot slot false) := by
  have hslots : kernelStackSlots = 819 := by decide
  have htop : kernelStackTop slot = 0xC8000000 + slot * 20480 + 20480 := rfl
  have hbase : wrap32 (kernelStackTop slot + 4294967296 - kernelStackSlotSize) =
      kernelStackBase slot := by
    have hb : kernelStackBase slot = 0xC8000000 + slot * 20480 := rfl
    have hs : kernelStackSlotSize = 20480 := by decide
    unfold wrap32
    omega
  have hindex : wrap32 (kernelStackBase slot + 4294967296 - kernelStackPoolStart) /
      kernelStackSlotSize = slot := by
    have hb : kernelStackBase slot = 0xC8000000 + slot * 20480 := rfl
    have hs : kernelStackSlotSize = 20480 := by decide
    rw [hb, hs]
    unfold wrap32 kernelStackPoolStart
    omega
  unfold vmmFreeKernelStack
  dsimp only
  rw [if_neg (by omega), hbase, hindex, if_neg (by omega)]

/-- `vmm_free_kernel_stack` of a stack in use gives its slot and frames back. -/
theorem vmmFreeKernelStack_spec (h : VmInv m pds own) (hk : KernelHalf m own (stacksInUse m))
    {slot : Nat} (hslot : slot < kernelStackSlots) (hbit : m.kstackBitmap slot = true) :
    (vmmFreeKernelStack m (kernelStackTop slot)).kstackBitmap =
        Function.update m.kstackBitmap slot false ∧
    ∃ own', VmInv (vmmFreeKernelStack m (kernelStackTop slot)) pds own' ∧
      KernelHalf (vmmFreeKernelStack m (kernelStackTop slot)) own'
        (stacksInUse (vmmFreeKernelStack m (kernelStackTop slot))) ∧
      KernelStep m own (vmmFreeKernelStack m (kernelStackTop slot)) own' := by
  have hfold : ∀ (l : List Nat) (m₁ : Machine) (own₁ : Nat → Owner) (R₁ : Nat → Nat → Prop),
      VmInv m₁ pds own₁ → KernelHalf m₁ own₁ R₁ → (∀ p ∈ l, R₁ slot p) → l.Nodup →
      l.foldl (fun m p =>
          if isPresent (m.mem m.bootPageDirectory
              (dirIndex (kernelStackBase slot + p * 4096))) then
            freeStackPage m (kernelStackBase slot + p * 4096)
          else m) m₁ =
        l.foldl (fun m p => freeStackPage m (stackVirt slot p)) m₁ := by
    intro l
    induction l with
    | nil => exact fun _ _ _ _ _ _ _ => rfl
    | cons p rest ih =>
      intro m₁ own₁ R₁ h₁ hk₁ hl hnodup
      obtain ⟨hp, hrest⟩ := List.nodup_cons.mp hnodup
      obtain ⟨-, -, hp₄, -, -⟩ := hk₁.stack slot p (hl p List.mem_cons_self)
      obtain ⟨hlo, hhi⟩ := stackVirt_index hslot hp₄
      obtain ⟨own₂, h₂, hk₂, -, -⟩ := freeStackPage_spec h₁ hk₁ (hl p List.mem_cons_self)
      rw [List.foldl_cons, List.foldl_cons]
      have hpres : isPresent (m₁.mem m₁.bootPageDirectory
          (dirIndex (kernelStackBase slot + p * 4096))) = true := hk₁.direct _ hlo hhi
      rw [if_pos hpres]
      exact ih _ own₂ _ h₂ hk₂ (fun q hq => ⟨hl q (List.mem_cons_of_mem _ hq),
        fun heq => hp (heq.2 ▸ hq)⟩) hrest
  have hpages : ∀ p ∈ [1, 2, 3, 4], stacksInUse m slot p := by
    intro p hp
    simp only [List.mem_cons, List.not_mem_nil, or_false] at hp
    exact ⟨hslot, hbit, by omega, by omega⟩
  have heq : vmmFreeKernelStack m (kernelStackTop slot) =
      [1, 2, 3, 4].foldl (fun m p => freeStackPage m (stackVirt slot p)) (m.setSlot slot false) := by
    rw [vmmFreeKernelStack_eq m hslot]
    exact hfold _ _ own _ (h.setSlot slot false) (hk.setSlot slot false) hpages (by decide)
  obtain ⟨own', h', hk', hs', hb'⟩ := foldl_freeStackPage_spec (h.setSlot slot false)
    slot (hk.setSlot slot false) hpages (by decide)
  rw [heq]
  have hbits : (List.foldl (fun m p => freeStackPage m (stackVirt slot p)) (m.setSlot slot false)
      [1, 2, 3, 4]).kstackBitmap = Function.update m.kstackBitmap slot false := hb'
  refine ⟨hbits, own', h', hk'.mono ?_, (KernelStep.setSlot m own slot false).trans hs'⟩
  rintro s q ⟨hs, hsbit, hq⟩
  rw [hbits] at hsbit
  have hne : s ≠ slot := by
    rintro rfl
    rw [Function.update_self] at hsbit
    cases hsbit
  rw [Function.update_of_ne hne] at hsbit
  exact ⟨⟨hs, hsbit, hq⟩, fun heq => hne heq.1⟩

end Allocator

end EnclaveOS
