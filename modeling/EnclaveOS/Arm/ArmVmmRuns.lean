import EnclaveOS.Arm.ArmPmm
import EnclaveOS.Foundation.Run

/-!
# ArmVmmRuns - the address spaces of the ARM kernel as maps

A space is meant to be the map of the pages mapped in it.  A table made for a page without user
access is put into the kernel's domain, whose accesses are not checked, and a page mapped neither
for user mode nor for writing can be written by the kernel; every other mapping is kept as it was
asked for.
-/

namespace EnclaveOS

open PageWord ByteMemory

/-- The small-page descriptor of a mapping. -/
def smallPage (phys flags : Word) : Word := (phys &&& 0xFFFFF000#32) ||| halFlagsToL2 flags

/-- The first-level entry of a user table in a frame. -/
def userTable (f : Nat) : Word :=
  (frameAddr f &&& 0xFFFFFC00#32) ||| armL1SectionDomain armDomainUser ||| armL1TypeCoarse

/-- The descriptor bits, flag by flag: without user access the page can be written. -/
theorem halFlagsToL2_bits (flags : Word) :
    IsLow (halFlagsToL2 flags) ∧ hasFlag (halFlagsToL2 flags) armL2TypeSmallPage = true ∧
      hasFlag (halFlagsToL2 flags) 0x20#32 = hasFlag flags halPageUser ∧
      hasFlag (halFlagsToL2 flags) 0x10#32 =
        (hasFlag flags halPageWrite || !hasFlag flags halPageUser) ∧
      hasFlag (halFlagsToL2 flags) 0x200#32 = false ∧
      hasFlag (halFlagsToL2 flags) armL2SmallXn = !hasFlag flags halPageExec := by
  unfold halFlagsToL2
  generalize hasFlag flags halPageNocache = nocache
  generalize hasFlag flags halPageWrite = write
  generalize hasFlag flags halPageUser = user
  generalize hasFlag flags halPageExec = exec
  generalize hasFlag flags halPageGlobal = global
  revert nocache write user exec global
  decide

theorem hasFlag_smallPage (phys flags : Word) {flag : Word} (hflag : IsLow flag) :
    hasFlag (smallPage phys flags) flag = hasFlag (halFlagsToL2 flags) flag := by
  have hphys : hasFlag (phys &&& 0xFFFFF000#32) flag = false := hasFlag_physOf phys hflag
  rw [smallPage, hasFlag_or, hphys, Bool.false_or]

@[simp]
theorem hasFlag_smallPage_type (phys flags : Word) :
    hasFlag (smallPage phys flags) armL2TypeSmallPage = true :=
  (hasFlag_smallPage phys flags (by decide)).trans (halFlagsToL2_bits flags).2.1

/-- An aligned address has no low bits. -/
theorem physOf_of_aligned {phys : Word} (h : phys &&& 0xFFF#32 = 0#32) : physOf phys = phys := by
  have hall : phys &&& (0xFFFFF000#32 ||| 0xFFF#32) = phys := by
    rw [show 0xFFFFF000#32 ||| 0xFFF#32 = BitVec.allOnes 32 by decide, BitVec.and_allOnes]
  rw [BitVec.and_or_distrib_left, h, BitVec.or_zero] at hall
  exact hall

theorem physOf_smallPage {phys : Word} (h : phys &&& 0xFFF#32 = 0#32) (flags : Word) :
    physOf (smallPage phys flags) = phys := by
  rw [physOf_eq_frameAddr, smallPage, frameOf_or (halFlagsToL2_bits flags).1]
  change frameAddr (frameOf (physOf phys)) = phys
  rw [frameOf_physOf, ← physOf_eq_frameAddr, physOf_of_aligned h]

/-- What a descriptor grants: a page without user access can be written. -/
theorem ofL2_smallPage {phys : Word} (hphys : phys &&& 0xFFF#32 = 0#32) (flags : Word) :
    PageAttrs.ofL2 (smallPage phys flags) =
      { PageAttrs.ofHal phys flags with
        writable := hasFlag flags halPageWrite || !hasFlag flags halPageUser } := by
  obtain ⟨-, -, huser, hwrite, hext, hxn⟩ := halFlagsToL2_bits flags
  unfold PageAttrs.ofL2 PageAttrs.ofHal
  rw [physOf_smallPage hphys, hasFlag_smallPage _ _ (by decide), hasFlag_smallPage _ _ (by decide),
    hasFlag_smallPage _ _ (by decide), hasFlag_smallPage _ _ (by decide), huser, hwrite, hext, hxn]
  simp

/-- The flags are checked before a descriptor is written. -/
theorem not_userWritableExec_smallPage {phys flags : Word} (hphys : phys &&& 0xFFF#32 = 0#32)
    (h : halMmuCheckWx flags) : ¬ UserWritableExec (smallPage phys flags) := by
  unfold UserWritableExec halMmuCheckWx at *
  rw [ofL2_smallPage hphys]
  simp only [PageAttrs.ofHal]
  revert h
  cases hasFlag flags halPageWrite <;> cases hasFlag flags halPageUser <;>
    cases hasFlag flags halPageExec <;> simp

section Tables

variable {f g : Nat}

private theorem tableBase (hf : f < 1048576) : frameAddr f &&& 0xFFFFFC00#32 = frameAddr f := by
  have h : frameAddr f = frameAddr f &&& 0xFFFFF000#32 := (physOf_frameAddr hf).symm
  rw [h, BitVec.and_assoc]
  congr 1

@[simp]
theorem l1Type_userTable (hf : f < 1048576) : l1Type (userTable f) = armL1TypeCoarse := by
  have hlow : frameAddr f &&& 3#32 = 0#32 := by
    rw [← physOf_frameAddr hf, physOf, BitVec.and_assoc]
    simp
  rw [l1Type, userTable, tableBase hf, BitVec.or_assoc, BitVec.and_or_distrib_right, hlow]
  decide

@[simp]
theorem l2PhysFromL1_userTable (hf : f < 1048576) : l2PhysFromL1 (userTable f) = frameAddr f := by
  rw [l2PhysFromL1, userTable, tableBase hf, BitVec.or_assoc, BitVec.and_or_distrib_right,
    tableBase hf]
  exact BitVec.or_zero

/-- A user table is in the client domain. -/
theorem domainAccess_userTable (hf : f < 1048576) : domainAccess (userTable f) = 1#32 := by
  have hdomain : (userTable f >>> 5) &&& 0xF#32 = 1#32 := by
    have hlow : (frameAddr f >>> 5) &&& 0xF#32 = 0#32 := by
      rw [← physOf_frameAddr hf, physOf, BitVec.ushiftRight_and_distrib, BitVec.and_assoc]
      simp
    rw [userTable, tableBase hf, BitVec.or_assoc, BitVec.ushiftRight_or_distrib,
      BitVec.and_or_distrib_right, hlow]
    decide
  rw [domainAccess, hdomain]
  decide

theorem userTable_inj (hf : f < 1048576) (hg : g < 1048576) (h : userTable f = userTable g) :
    f = g := by
  have hphys := congrArg l2PhysFromL1 h
  rw [l2PhysFromL1_userTable hf, l2PhysFromL1_userTable hg] at hphys
  rw [← frameOf_frameAddr hf, hphys, frameOf_frameAddr hg]

theorem userTable_ne_fault (hf : f < 1048576) : userTable f ≠ armL1TypeFault := by
  intro h
  have htype := l1Type_userTable hf
  rw [h] at htype
  revert htype
  decide

end Tables

namespace ArmVmm

variable {σ : Type} {A : PageSource σ} {held : σ → Nat → Prop} {m m' : ArmVmm σ}
  {slot slot' i i' f g va virt : Nat} {phys flags : Word}

/-- A user table of a live space. -/
structure UserTable (m : ArmVmm σ) (slot i f : Nat) : Prop where
  used : m.used slot = true
  index : i < 3072
  frame : f < 1048576
  entry : m.l1 slot i = userTable f

/-- The entries of the user part of each live space are faults or tables of its own, and no entry
of a table can be written and executed by user mode. -/
structure VmmInv (held : σ → Nat → Prop) (m : ArmVmm σ) : Prop where
  slots : ∀ slot, m.used slot = true → slot < armVmmMaxSpaces
  entry : ∀ slot i, m.used slot = true → i < 3072 →
    m.l1 slot i = armL1TypeFault ∨ ∃ f, m.UserTable slot i f
  held : ∀ slot i f, m.UserTable slot i f → held m.pmm f
  apart : ∀ slot i slot' i' f, m.UserTable slot i f → m.UserTable slot' i' f → slot = slot' ∧ i = i'
  wx : ∀ slot i f k, m.UserTable slot i f → k < 256 →
    ¬ UserWritableExec (loadWord m.mem (f * 4096 + 4 * k))

/-- A space whose translations and whose entries of the kernel part stay. -/
structure SpaceKept (m m' : ArmVmm σ) (slot : Nat) : Prop where
  translate : ∀ va, l1Index va < 3072 → m'.translate slot va = m.translate slot va
  kernel : ∀ i, 3072 ≤ i → m'.l1 slot i = m.l1 slot i

theorem SpaceKept.refl (m : ArmVmm σ) (slot : Nat) : SpaceKept m m slot :=
  ⟨fun _ _ => rfl, fun _ _ => rfl⟩

/-- What an entry of a user table grants. -/
def decode (entry : Word) : Option PageAttrs :=
  if hasFlag entry armL2TypeSmallPage then some (PageAttrs.ofL2 entry) else none

theorem l2Index_lt (va : Nat) : l2Index va < 256 := Nat.mod_lt _ (by omega)

theorem translate_userTable (h : m.UserTable slot (l1Index va) f) :
    m.translate slot va = decode (loadWord m.mem (f * 4096 + 4 * l2Index va)) := by
  unfold translate PageAttrs.ofEntries decode l2Entry
  rw [h.entry, l1Type_userTable h.frame, if_pos rfl, l2PhysFromL1_userTable h.frame,
    frameAddr_toNat h.frame, domainAccess_userTable h.frame, if_neg (show ¬ 1#32 = 3#32 by decide),
    if_pos (show 1#32 = 1#32 from rfl)]

theorem translate_fault (h : m.l1 slot (l1Index va) = armL1TypeFault) :
    m.translate slot va = none := by
  unfold translate
  rw [h, if_neg (by decide)]

/-- The translations of a live space only depend on its entries and on the words of its tables. -/
theorem VmmInv.translate_congr (h : VmmInv held m) (hused : m.used slot = true)
    (hva : l1Index va < 3072) (hl1 : m'.l1 slot (l1Index va) = m.l1 slot (l1Index va))
    (hmem : ∀ f, m.UserTable slot (l1Index va) f →
      loadWord m'.mem (f * 4096 + 4 * l2Index va) = loadWord m.mem (f * 4096 + 4 * l2Index va)) :
    m'.translate slot va = m.translate slot va := by
  unfold translate
  rw [hl1]
  rcases h.entry slot _ hused hva with hfault | ⟨f, hf⟩
  · rw [hfault, if_neg (by decide), if_neg (by decide)]
  · rw [hf.entry, l2PhysFromL1_userTable hf.frame, l2Entry, l2Entry, frameAddr_toNat hf.frame,
      hmem f hf]

/-- The invariant does not depend on the pages of others. -/
theorem VmmInv.setPmm (h : VmmInv held m) {pmm : σ}
    (hheld : ∀ slot i f, m.UserTable slot i f → held pmm f) : VmmInv held { m with pmm := pmm } where
  slots := h.slots
  entry slot i hused hi := by
    rcases h.entry slot i hused hi with hfault | ⟨f, hf⟩
    · exact Or.inl hfault
    · exact Or.inr ⟨f, hf.used, hf.index, hf.frame, hf.entry⟩
  held slot i f hf := hheld slot i f ⟨hf.used, hf.index, hf.frame, hf.entry⟩
  apart slot i slot' i' f hf hf' :=
    h.apart slot i slot' i' f ⟨hf.used, hf.index, hf.frame, hf.entry⟩
      ⟨hf'.used, hf'.index, hf'.frame, hf'.entry⟩
  wx slot i f k hf := h.wx slot i f k ⟨hf.used, hf.index, hf.frame, hf.entry⟩

/-- One entry of the table in a frame written. -/
def setEntry (m : ArmVmm σ) (f k : Nat) (entry : Word) : ArmVmm σ :=
  { m with mem := storeWord m.mem (f * 4096 + 4 * k) entry }

theorem userTable_setEntry {k : Nat} {entry : Word} :
    (m.setEntry f k entry).UserTable slot i g ↔ m.UserTable slot i g :=
  ⟨fun h => ⟨h.used, h.index, h.frame, h.entry⟩, fun h => ⟨h.used, h.index, h.frame, h.entry⟩⟩

/-- Entries of other tables, and other entries, are not the one written. -/
theorem loadWord_setEntry_of_ne {k k' : Nat} (hk : k < 256) (hk' : k' < 256)
    (hne : ¬ (g = f ∧ k' = k)) (entry : Word) :
    loadWord (m.setEntry f k entry).mem (g * 4096 + 4 * k') = loadWord m.mem (g * 4096 + 4 * k') := by
  apply loadWord_storeWord_of_disjoint
  omega

theorem VmmInv.setEntry (h : VmmInv held m) {k : Nat} {entry : Word} (hk : k < 256)
    (hentry : ¬ UserWritableExec entry) : VmmInv held (m.setEntry f k entry) where
  slots := h.slots
  entry slot i hused hi := by
    rcases h.entry slot i hused hi with hfault | ⟨g, hg⟩
    · exact Or.inl hfault
    · exact Or.inr ⟨g, userTable_setEntry.mpr hg⟩
  held slot i g hg := h.held slot i g (userTable_setEntry.mp hg)
  apart slot i slot' i' g hg hg' :=
    h.apart slot i slot' i' g (userTable_setEntry.mp hg) (userTable_setEntry.mp hg')
  wx slot i g k' hg hk' := by
    by_cases hsame : g = f ∧ k' = k
    · obtain ⟨rfl, rfl⟩ := hsame
      change ¬ UserWritableExec (loadWord (storeWord m.mem _ entry) _)
      rw [loadWord_storeWord]
      exact hentry
    · rw [loadWord_setEntry_of_ne hk hk' hsame]
      exact h.wx slot i g k' (userTable_setEntry.mp hg) hk'

/-- Writing the entry of a page changes the translation of that page alone. -/
theorem VmmInv.translate_setEntry (h : VmmInv held m) (hf : m.UserTable slot (l1Index virt) f)
    (entry : Word) (hused : m.used slot' = true) (hva : l1Index va < 3072) :
    (m.setEntry f (l2Index virt) entry).translate slot' va =
      if slot' = slot ∧ va / 4096 = virt / 4096 then decode entry else m.translate slot' va := by
  split_ifs with hsame
  · obtain ⟨rfl, hpage⟩ := hsame
    have hl1 : l1Index va = l1Index virt := by
      unfold l1Index
      omega
    have hl2 : l2Index va = l2Index virt := by
      unfold l2Index
      rw [hpage]
    rw [translate_userTable (f := f) (by rw [hl1]; exact userTable_setEntry.mpr hf), hl2]
    exact congrArg decode (loadWord_storeWord entry)
  · have hl1 : (m.setEntry f (l2Index virt) entry).l1 slot' (l1Index va) =
        m.l1 slot' (l1Index va) := rfl
    apply h.translate_congr hused hva hl1
    intro g hg
    apply loadWord_setEntry_of_ne (l2Index_lt _) (l2Index_lt _)
    rintro ⟨rfl, hl2⟩
    -- The same table is the same megabyte of the same space.
    obtain ⟨rfl, hl1⟩ := h.apart _ _ _ _ _ hg hf
    apply hsame
    unfold l1Index at hl1
    unfold l2Index at hl2
    omega

theorem setL1_l1 (m : ArmVmm σ) (slot i : Nat) (entry : Word) (slot' i' : Nat) :
    (m.setL1 slot i entry).l1 slot' i' =
      if slot' = slot ∧ i' = i then entry else m.l1 slot' i' := by
  unfold setL1
  by_cases hslot : slot' = slot
  · subst hslot
    by_cases hi : i' = i
    · simp [hi]
    · simp [hi]
  · simp [hslot]

theorem loadWord_zeroL2 (mem : Bytes) (l2 : Nat) {k : Nat} (hk : k < 256) :
    loadWord (zeroL2 mem l2) (l2 + 4 * k) = 0#32 := by
  unfold loadWord zeroL2
  rw [if_pos (by omega), if_pos (by omega), if_pos (by omega), if_pos (by omega)]
  rfl

theorem loadWord_zeroL2_of_outside {mem : Bytes} {l2 a : Nat} (h : a + 4 ≤ l2 ∨ l2 + 1024 ≤ a) :
    loadWord (zeroL2 mem l2) a = loadWord mem a := by
  apply loadWord_congr
  intro i hi
  exact if_neg (by omega)

/-- An empty user table in a frame. -/
def withTable (m : ArmVmm σ) (slot i f : Nat) (pmm : σ) : ArmVmm σ :=
  { m with pmm := pmm, mem := zeroL2 m.mem (f * 4096) }.setL1 slot i (userTable f)

theorem userTable_withTable {pmm : σ} (hused : m.used slot = true) (hi : i < 3072)
    (hf : f < 1048576) :
    (m.withTable slot i f pmm).UserTable slot' i' g ↔
      (slot' = slot ∧ i' = i ∧ g = f) ∨ ¬ (slot' = slot ∧ i' = i) ∧ m.UserTable slot' i' g := by
  constructor
  · intro h
    have hentry := h.entry
    unfold withTable at hentry
    rw [setL1_l1] at hentry
    split_ifs at hentry with hsame
    · exact Or.inl ⟨hsame.1, hsame.2, (userTable_inj hf h.frame hentry).symm⟩
    · exact Or.inr ⟨hsame, h.used, h.index, h.frame, hentry⟩
  · rintro (⟨rfl, rfl, rfl⟩ | ⟨hne, h⟩)
    · refine ⟨hused, hi, hf, ?_⟩
      unfold withTable
      rw [setL1_l1, if_pos ⟨rfl, rfl⟩]
    · refine ⟨h.used, h.index, h.frame, ?_⟩
      unfold withTable
      rw [setL1_l1, if_neg hne]
      exact h.entry

theorem VmmInv.table_ne (h : VmmInv held m) (hfresh : ¬ held m.pmm f)
    (hg : m.UserTable slot i g) : g ≠ f := by
  rintro rfl
  exact hfresh (h.held slot i g hg)

theorem VmmInv.withTable (h : VmmInv held m) {pmm : σ} (hused : m.used slot = true)
    (hi : i < 3072) (hf : f < 1048576) (hfresh : ¬ held m.pmm f)
    (hheld : ∀ g, held pmm g ↔ g = f ∨ held m.pmm g) :
    VmmInv held (m.withTable slot i f pmm) where
  slots := h.slots
  entry slot' i' hused' hi' := by
    by_cases hsame : slot' = slot ∧ i' = i
    · exact Or.inr ⟨f, (userTable_withTable hused hi hf).mpr (Or.inl ⟨hsame.1, hsame.2, rfl⟩)⟩
    · rcases h.entry slot' i' hused' hi' with hfault | ⟨g, hg⟩
      · left
        unfold ArmVmm.withTable
        rw [setL1_l1, if_neg hsame]
        exact hfault
      · exact Or.inr ⟨g, (userTable_withTable hused hi hf).mpr (Or.inr ⟨hsame, hg⟩)⟩
  held slot' i' g hg := by
    rcases (userTable_withTable hused hi hf).mp hg with ⟨-, -, rfl⟩ | ⟨-, hg⟩
    · exact (hheld g).mpr (Or.inl rfl)
    · exact (hheld g).mpr (Or.inr (h.held slot' i' g hg))
  apart slot₁ i₁ slot₂ i₂ g hg hg' := by
    rcases (userTable_withTable hused hi hf).mp hg with ⟨rfl, rfl, rfl⟩ | ⟨-, hold⟩
    · rcases (userTable_withTable hused hi hf).mp hg' with ⟨rfl, rfl, -⟩ | ⟨-, hold'⟩
      · exact ⟨rfl, rfl⟩
      · exact absurd rfl (h.table_ne hfresh hold')
    · rcases (userTable_withTable hused hi hf).mp hg' with ⟨-, -, rfl⟩ | ⟨-, hold'⟩
      · exact absurd rfl (h.table_ne hfresh hold)
      · exact h.apart slot₁ i₁ slot₂ i₂ g hold hold'
  wx slot' i' g k hg hk := by
    change ¬ UserWritableExec (loadWord (zeroL2 m.mem (f * 4096)) _)
    rcases (userTable_withTable hused hi hf).mp hg with ⟨-, -, rfl⟩ | ⟨-, hg⟩
    · rw [loadWord_zeroL2 _ _ hk]
      decide
    · have hne := h.table_ne hfresh hg
      rw [loadWord_zeroL2_of_outside (by omega)]
      exact h.wx slot' i' g k hg hk

/-- An empty table translates nothing, and the other tables stay. -/
theorem VmmInv.kept_withTable (h : VmmInv held m) {pmm : σ} (hused : m.used slot = true)
    (hi : i < 3072) (hf : f < 1048576) (hfresh : ¬ held m.pmm f)
    (hfault : m.l1 slot i = armL1TypeFault) (hused' : m.used slot' = true) :
    SpaceKept m (m.withTable slot i f pmm) slot' := by
  constructor
  · intro va hva
    by_cases hsame : slot' = slot ∧ l1Index va = i
    · obtain ⟨rfl, rfl⟩ := hsame
      rw [translate_fault hfault,
        translate_userTable ((userTable_withTable hused hi hf).mpr (Or.inl ⟨rfl, rfl, rfl⟩))]
      change decode (loadWord (zeroL2 m.mem (f * 4096)) _) = none
      rw [loadWord_zeroL2 _ _ (l2Index_lt va)]
      decide
    · have hl1 : (m.withTable slot i f pmm).l1 slot' (l1Index va) = m.l1 slot' (l1Index va) := by
        unfold ArmVmm.withTable
        rw [setL1_l1, if_neg hsame]
      apply h.translate_congr hused' hva hl1
      intro g hg
      have hne := h.table_ne hfresh hg
      have hl2 := l2Index_lt va
      exact loadWord_zeroL2_of_outside (by omega)
  · intro j hj
    unfold ArmVmm.withTable
    rw [setL1_l1, if_neg (by omega)]

/-- The table of a page: no memory for it, a new one in a free frame, or the one that is there. -/
theorem VmmInv.ensureTable_cases (hA : A.Lawful held) (h : VmmInv held m)
    (hused : m.used slot = true) (hvirt : l1Index virt < 3072)
    (huser : l1Type (m.l1 slot (l1Index virt)) = armL1TypeFault →
      hasFlag flags halPageUser ∨ (A.allocPage m.pmm).2 = 0#32) :
    (m.l1 slot (l1Index virt) = armL1TypeFault ∧
        m.ensureTable A slot virt flags = ({ m with pmm := (A.allocPage m.pmm).1 }, false) ∧
        ∀ g, held m.pmm g → held (A.allocPage m.pmm).1 g) ∨
      (m.l1 slot (l1Index virt) = armL1TypeFault ∧ hasFlag flags halPageUser ∧
        ∃ g < 1048576, ¬held m.pmm g ∧
          (∀ g', held (A.allocPage m.pmm).1 g' ↔ g' = g ∨ held m.pmm g') ∧
          m.ensureTable A slot virt flags =
            (m.withTable slot (l1Index virt) g (A.allocPage m.pmm).1, true)) ∨
      ∃ g, m.UserTable slot (l1Index virt) g ∧ m.ensureTable A slot virt flags = (m, true) := by
  unfold ArmVmm.ensureTable
  rcases h.entry slot _ hused hvirt with hfault | ⟨g, hg⟩
  · have htype : l1Type (m.l1 slot (l1Index virt)) = armL1TypeFault := by
      rw [hfault]
      rfl
    rw [if_pos htype]
    rcases hA.alloc m.pmm with ⟨hzero, hmono⟩ | ⟨g, hpos, hg, hfresh, hres, hheld⟩
    · exact Or.inl ⟨hfault, if_pos hzero, hmono⟩
    · have hne : (A.allocPage m.pmm).2 ≠ 0#32 := by
        rw [hres, Ne, frameAddr_eq_zero_iff hg]
        omega
      have hflag : hasFlag flags halPageUser = true := (huser htype).resolve_right hne
      refine Or.inr (Or.inl ⟨hfault, hflag, g, hg, hfresh, hheld, ?_⟩)
      dsimp only
      rw [if_neg hne, hflag, if_pos rfl, hres, frameAddr_toNat hg]
      rfl
  · have htype : l1Type (m.l1 slot (l1Index virt)) ≠ armL1TypeFault := by
      rw [hg.entry, l1Type_userTable hg.frame]
      decide
    exact Or.inr (Or.inr ⟨g, hg, if_neg htype⟩)

/-- The table of a page is there or is made; nothing is translated in another way. -/
theorem VmmInv.ensureTable (hA : A.Lawful held) (h : VmmInv held m) (hused : m.used slot = true)
    (hvirt : l1Index virt < 3072)
    (huser : l1Type (m.l1 slot (l1Index virt)) = armL1TypeFault →
      hasFlag flags halPageUser ∨ (A.allocPage m.pmm).2 = 0#32) :
    ∃ m' ok, m.ensureTable A slot virt flags = (m', ok) ∧ VmmInv held m' ∧ m'.used = m.used ∧
      m'.bootL1 = m.bootL1 ∧ (∀ slot', m.used slot' = true → SpaceKept m m' slot') ∧
      (ok = true → (∃ f, m'.UserTable slot (l1Index virt) f) ∧
        (l1Type (m.l1 slot (l1Index virt)) = armL1TypeFault → hasFlag flags halPageUser)) := by
  rcases h.ensureTable_cases hA hused hvirt huser with
    ⟨-, hres, hmono⟩ | ⟨hfault, hflag, g, hg, hfresh, hheld, hres⟩ | ⟨g, hg, hres⟩
  · have hinv := h.setPmm (fun slot i f hf => hmono f (h.held slot i f hf))
    refine ⟨_, false, hres, hinv, rfl, rfl, fun _ _ => ⟨fun _ _ => rfl, fun _ _ => rfl⟩, ?_⟩
    simp
  · exact ⟨_, true, hres, h.withTable hused hvirt hg hfresh hheld, rfl, rfl,
      fun slot' hused' => h.kept_withTable hused hvirt hg hfresh hfault hused',
      fun _ => ⟨⟨g, (userTable_withTable hused hvirt hg).mpr (Or.inl ⟨rfl, rfl, rfl⟩)⟩,
        fun _ => hflag⟩⟩
  · refine ⟨m, true, hres, h, rfl, rfl, fun _ _ => SpaceKept.refl ..,
      fun _ => ⟨⟨g, hg⟩, fun hfault => absurd hfault ?_⟩⟩
    rw [hg.entry, l1Type_userTable hg.frame]
    decide

/-- A call of `hal_mmu_map_page_in_space` that passes the checks asks for user access; or it finds a
table and asks for writing; or it finds no page for a table. -/
def MapsAsAsked (A : PageSource σ) (m : ArmVmm σ) (slot virt : Nat) (phys flags : Word) : Prop :=
  virt % 4096 = 0 → phys &&& 0xFFF#32 = 0#32 → halMmuCheckWx flags = true → l1Index virt < 3072 →
    hasFlag flags halPageUser = true ∨
      if l1Type (m.l1 slot (l1Index virt)) = armL1TypeFault then (A.allocPage m.pmm).2 = 0#32
      else hasFlag flags halPageWrite = true

/-- A call that maps a page: it fails and translates nothing in another way, or adds this page. -/
def MapEffect (m m' : ArmVmm σ) (slot virt : Nat) (phys flags : Word) (result : Int) : Prop :=
  (result = -1 ∧ ∀ slot', m.used slot' = true → SpaceKept m m' slot') ∨
    (result = 0 ∧ (∀ slot' i, m.used slot' = true → 3072 ≤ i → m'.l1 slot' i = m.l1 slot' i) ∧
      ∀ slot' va, m.used slot' = true → l1Index va < 3072 →
        m'.translate slot' va =
          if slot' = slot ∧ va / 4096 = virt / 4096 then some (PageAttrs.ofHal phys flags)
          else m.translate slot' va)

theorem VmmInv.map (hA : A.Lawful held) (h : VmmInv held m) (hused : m.used slot = true)
    (hasked : MapsAsAsked A m slot virt phys flags) :
    ∃ m' r, m.halMmuMapPageInSpace A (some slot) virt phys flags = (m', r) ∧ VmmInv held m' ∧
      m'.used = m.used ∧ m'.bootL1 = m.bootL1 ∧ MapEffect m m' slot virt phys flags r := by
  -- A call that is refused leaves the state as it is.
  have hrefused : VmmInv held m ∧ m.used = m.used ∧ m.bootL1 = m.bootL1 ∧
      MapEffect m m slot virt phys flags (-1) :=
    ⟨h, rfl, rfl, Or.inl ⟨rfl, fun _ _ => SpaceKept.refl ..⟩⟩
  unfold halMmuMapPageInSpace
  by_cases halign : virt % 4096 = 0
  case neg => exact ⟨m, -1, if_pos halign, hrefused⟩
  by_cases hphys : phys &&& 0xFFF#32 = 0#32
  case neg =>
    refine ⟨m, -1, ?_, hrefused⟩
    simp [halign, hphys]
  cases hwx : halMmuCheckWx flags
  case false =>
    refine ⟨m, -1, ?_, hrefused⟩
    simp [halign, hphys]
  by_cases hvirt : l1Index virt < 3072
  case neg =>
    refine ⟨m, -1, ?_, hrefused⟩
    simp [halign, hphys, Nat.not_lt.mp hvirt]
  have hflags := hasked halign hphys hwx hvirt
  have htable : l1Type (m.l1 slot (l1Index virt)) = armL1TypeFault →
      hasFlag flags halPageUser ∨ (A.allocPage m.pmm).2 = 0#32 := by
    intro hfault
    rwa [if_pos hfault] at hflags
  obtain ⟨m₁, ok, hensure, hinv, hused₁, hboot, hkept, htab⟩ :=
    h.ensureTable hA hused hvirt htable
  simp only [halign, hphys, hensure, not_true_eq_false, if_false, ne_eq, Bool.not_true,
    Bool.false_eq_true, Nat.not_le.mpr hvirt]
  cases ok with
  | false => exact ⟨m₁, -1, rfl, hinv, hused₁, hboot, Or.inl ⟨rfl, hkept⟩⟩
  | true =>
    obtain ⟨⟨f, hf⟩, huser⟩ := htab rfl
    have hentry : PageAttrs.ofL2 (smallPage phys flags) = PageAttrs.ofHal phys flags := by
      rw [ofL2_smallPage hphys]
      simp only [PageAttrs.ofHal, PageAttrs.mk.injEq, true_and, and_true]
      rcases hflags with hflag | hflag
      · simp [hflag]
      · split_ifs at hflag with hfault
        · simp [huser hfault]
        · simp [hflag]
    refine ⟨m₁.setEntry f (l2Index virt) (smallPage phys flags), 0, ?_,
      hinv.setEntry (l2Index_lt virt) (not_userWritableExec_smallPage hphys hwx), hused₁, hboot,
      Or.inr ⟨rfl, fun slot' i hused' hi => (hkept slot' hused').kernel i hi, ?_⟩⟩
    · dsimp only
      rw [hf.entry, l1Type_userTable hf.frame, if_neg (by decide), l2PhysFromL1_userTable hf.frame,
        frameAddr_toNat hf.frame]
      rfl
    · intro slot' va hused' hva
      rw [hinv.translate_setEntry hf _ (hused₁ ▸ hused') hva, (hkept slot' hused').translate va hva,
        decode, hasFlag_smallPage_type, if_pos rfl, hentry]

/-- Unmapping a page takes this page away. -/
theorem VmmInv.unmap (h : VmmInv held m) (hused : m.used slot = true) (virt : Nat) :
    VmmInv held (m.halMmuUnmapPageInSpace (some slot) virt) ∧
      (m.halMmuUnmapPageInSpace (some slot) virt).used = m.used ∧
      (m.halMmuUnmapPageInSpace (some slot) virt).l1 = m.l1 ∧
      ∀ slot' va, m.used slot' = true → l1Index va < 3072 →
        (m.halMmuUnmapPageInSpace (some slot) virt).translate slot' va =
          if slot' = slot ∧ va / 4096 = virt / 4096 then none else m.translate slot' va := by
  -- Without a table there is nothing to take away.
  have hnone : (∀ va, l1Index va < 3072 → va / 4096 = virt / 4096 → m.translate slot va = none) →
      VmmInv held m ∧ m.used = m.used ∧ m.l1 = m.l1 ∧
        ∀ slot' va, m.used slot' = true → l1Index va < 3072 →
          m.translate slot' va =
            if slot' = slot ∧ va / 4096 = virt / 4096 then none else m.translate slot' va := by
    intro hpage
    refine ⟨h, rfl, rfl, fun slot' va _ hva => ?_⟩
    split_ifs with hsame
    · rw [hsame.1]
      exact hpage va hva hsame.2
    · rfl
  have hindex : ∀ va, va / 4096 = virt / 4096 → l1Index va = l1Index virt := by
    intro va hva
    unfold l1Index
    omega
  by_cases hvirt : 3072 ≤ l1Index virt
  · have heq : m.halMmuUnmapPageInSpace (some slot) virt = m := if_pos hvirt
    rw [heq]
    apply hnone
    intro va hva hpage
    rw [hindex va hpage] at hva
    omega
  · rcases h.entry slot _ hused (Nat.not_le.mp hvirt) with hfault | ⟨f, hf⟩
    · have heq : m.halMmuUnmapPageInSpace (some slot) virt = m := by
        unfold halMmuUnmapPageInSpace
        simp only [hvirt, if_false, hfault]
        exact if_pos (by decide)
      rw [heq]
      apply hnone
      intro va _ hpage
      exact translate_fault (by rw [hindex va hpage]; exact hfault)
    · have heq : m.halMmuUnmapPageInSpace (some slot) virt =
          m.setEntry f (l2Index virt) armL2TypeFault := by
        unfold halMmuUnmapPageInSpace
        simp only [hvirt, if_false]
        rw [hf.entry, l1Type_userTable hf.frame, if_neg (by simp), l2PhysFromL1_userTable hf.frame,
          frameAddr_toNat hf.frame]
        rfl
      rw [heq]
      refine ⟨h.setEntry (l2Index_lt virt) (by decide), rfl, rfl, fun slot' va hused' hva => ?_⟩
      have hread := h.translate_setEntry hf armL2TypeFault hused' hva
      rw [show decode armL2TypeFault = none by decide] at hread
      exact hread

/-- A space without user tables in a slot. -/
def withSpace (m : ArmVmm σ) (slot : Nat) : ArmVmm σ :=
  { m with
    used := Function.update m.used slot true
    l1 := Function.update m.l1 slot fun i => if i < 3072 then armL1TypeFault else m.bootL1 i }

theorem withSpace_fault (m : ArmVmm σ) (slot : Nat) (hi : i < 3072) :
    (m.withSpace slot).l1 slot i = armL1TypeFault := by
  simp [withSpace, hi]

theorem withSpace_l1_of_ne (h : slot' ≠ slot) : (m.withSpace slot).l1 slot' = m.l1 slot' :=
  Function.update_of_ne h ..

theorem withSpace_used_of_ne (h : slot' ≠ slot) : (m.withSpace slot).used slot' = m.used slot' :=
  Function.update_of_ne h ..

/-- The tables are those of the other spaces. -/
theorem userTable_withSpace (hfree : m.used slot = false) :
    (m.withSpace slot).UserTable slot' i f ↔ m.UserTable slot' i f := by
  by_cases hsame : slot' = slot
  · subst hsame
    constructor
    · intro hf
      have hentry := hf.entry
      rw [withSpace_fault m slot' hf.index] at hentry
      exact absurd hentry.symm (userTable_ne_fault hf.frame)
    · intro hf
      have hused := hf.used
      rw [hfree] at hused
      cases hused
  · constructor
    · exact fun hf => ⟨withSpace_used_of_ne hsame ▸ hf.used, hf.index, hf.frame,
        withSpace_l1_of_ne hsame ▸ hf.entry⟩
    · exact fun hf => ⟨(withSpace_used_of_ne hsame).trans hf.used, hf.index, hf.frame,
        (congrFun (withSpace_l1_of_ne hsame) i).trans hf.entry⟩

theorem VmmInv.withSpace (h : VmmInv held m) (hfree : m.used slot = false)
    (hslot : slot < armVmmMaxSpaces) : VmmInv held (m.withSpace slot) where
  slots slot' hused' := by
    by_cases hsame : slot' = slot
    · rw [hsame]
      exact hslot
    · exact h.slots slot' (withSpace_used_of_ne hsame ▸ hused')
  entry slot' i hused' hi := by
    by_cases hsame : slot' = slot
    · rw [hsame]
      exact Or.inl (withSpace_fault m slot hi)
    · rw [withSpace_l1_of_ne hsame]
      rw [withSpace_used_of_ne hsame] at hused'
      rcases h.entry slot' i hused' hi with hfault | ⟨f, hf⟩
      · exact Or.inl hfault
      · exact Or.inr ⟨f, (userTable_withSpace hfree).mpr hf⟩
  held slot' i f hf := h.held slot' i f ((userTable_withSpace hfree).mp hf)
  apart slot₁ i₁ slot₂ i₂ f hf hf' :=
    h.apart slot₁ i₁ slot₂ i₂ f ((userTable_withSpace hfree).mp hf) ((userTable_withSpace hfree).mp hf')
  wx slot' i f k hf := h.wx slot' i f k ((userTable_withSpace hfree).mp hf)

/-- A new space has a slot that was free, and translates nothing. -/
theorem VmmInv.create (h : VmmInv held m) :
    m.halMmuCreateSpace = (m, none) ∨ ∃ slot, m.halMmuCreateSpace = (m.withSpace slot, some slot) ∧
      m.used slot = false ∧ VmmInv held (m.withSpace slot) ∧
      (∀ slot', m.used slot' = true → SpaceKept m (m.withSpace slot) slot') ∧
      ∀ va, l1Index va < 3072 → (m.withSpace slot).translate slot va = none := by
  unfold halMmuCreateSpace
  cases hfind : (List.range armVmmMaxSpaces).find? fun i => !m.used i with
  | none => exact Or.inl rfl
  | some slot =>
    right
    have hfree : m.used slot = false := by simpa using List.find?_some hfind
    have hslot : slot < armVmmMaxSpaces := List.mem_range.mp (List.mem_of_find?_eq_some hfind)
    refine ⟨slot, rfl, hfree, h.withSpace hfree hslot, fun slot' hused' => ?_,
      fun va hva => translate_fault (withSpace_fault m slot hva)⟩
    have hne : slot' ≠ slot := by
      rintro rfl
      rw [hfree] at hused'
      cases hused'
    constructor
    · intro va hva
      exact h.translate_congr hused' hva (congrFun (withSpace_l1_of_ne hne) _) fun _ _ => rfl
    · intro i _
      rw [withSpace_l1_of_ne hne]

/-- Giving back the tables of a space leaves the other pages. -/
theorem held_freeTables (hA : A.Lawful held) {l1 : Nat → Word} {entries : List Nat} {pmm : σ}
    (hentries : ∀ i ∈ entries, l1 i = armL1TypeFault ∨ ∃ f, f < 1048576 ∧ f ≠ g ∧ l1 i = userTable f)
    (hg : held pmm g) : held (freeTables A l1 pmm entries) g := by
  induction entries generalizing pmm with
  | nil => exact hg
  | cons i entries ih =>
    apply ih (fun j hj => hentries j (List.mem_cons_of_mem i hj))
    dsimp only
    rcases hentries i List.mem_cons_self with hfault | ⟨f, hf, hne, hentry⟩
    · rw [hfault, if_neg (by decide)]
      exact hg
    · rw [hentry, l1Type_userTable hf, if_pos rfl, l2PhysFromL1_userTable hf]
      exact (hA.free pmm f g hf).mpr ⟨hg, Ne.symm hne⟩

/-- Destroying a space leaves the others. -/
theorem VmmInv.destroy (hA : A.Lawful held) (h : VmmInv held m) (hused : m.used slot = true) :
    VmmInv held (m.halMmuDestroySpace A (some slot)) ∧
      (m.halMmuDestroySpace A (some slot)).used = Function.update m.used slot false ∧
      (m.halMmuDestroySpace A (some slot)).l1 = m.l1 ∧
      (m.halMmuDestroySpace A (some slot)).mem = m.mem := by
  unfold halMmuDestroySpace
  simp only [Nat.not_le.mpr (h.slots slot hused), if_false]
  have hlive : ∀ {slot'}, Function.update m.used slot false slot' = true →
      slot' ≠ slot ∧ m.used slot' = true := by
    intro slot' hused'
    by_cases hsame : slot' = slot
    · simp [hsame] at hused'
    · rw [Function.update_of_ne hsame] at hused'
      exact ⟨hsame, hused'⟩
  refine ⟨⟨fun slot' hused' => h.slots slot' (hlive hused').2, fun slot' i hused' hi => ?_,
    fun slot' i f hf => ?_, fun slot₁ i₁ slot₂ i₂ f hf hf' => ?_, fun slot' i f k hf => ?_⟩,
    trivial, trivial, trivial⟩
  · rcases h.entry slot' i (hlive hused').2 hi with hfault | ⟨f, hf⟩
    · exact Or.inl hfault
    · exact Or.inr ⟨f, hused', hf.index, hf.frame, hf.entry⟩
  · obtain ⟨hne, hlive'⟩ := hlive hf.used
    have hold : m.UserTable slot' i f := ⟨hlive', hf.index, hf.frame, hf.entry⟩
    apply held_freeTables hA _ (h.held slot' i f hold)
    intro j hj
    rcases h.entry slot j hused (List.mem_range.mp hj) with hfault | ⟨g, hg⟩
    · exact Or.inl hfault
    · refine Or.inr ⟨g, hg.frame, ?_, hg.entry⟩
      rintro rfl
      exact hne (h.apart _ _ _ _ _ hold hg).1
  · exact h.apart slot₁ i₁ slot₂ i₂ f ⟨(hlive hf.used).2, hf.index, hf.frame, hf.entry⟩
      ⟨(hlive hf'.used).2, hf'.index, hf'.frame, hf'.entry⟩
  · exact h.wx slot' i f k ⟨(hlive hf.used).2, hf.index, hf.frame, hf.entry⟩

end ArmVmm

/-- The calls on the spaces; the other users of the page allocator change its state. -/
inductive ArmVmmOp (σ : Type)
  | create
  | map (space : Option Nat) (virt : Nat) (phys flags : Word)
  | unmap (space : Option Nat) (virt : Nat)
  | destroy (space : Option Nat)
  | others (pmm : σ)

/-- The space a call is about. -/
def ArmVmmOp.space {σ : Type} : ArmVmmOp σ → Option Nat
  | .map space .. => space
  | .unmap space _ => space
  | .destroy space => space
  | _ => none

/-- The tables, with the pages mapped in each space and not since unmapped. -/
structure MappedSpaces (σ : Type) where
  vmm : ArmVmm σ
  maps : Nat → Nat → Option PageAttrs

namespace MappedSpaces

variable {σ : Type} {A : PageSource σ} {held : σ → Nat → Prop} {s : MappedSpaces σ} {op : ArmVmmOp σ}

/-- What is mapped at a page of a space. -/
def record (maps : Nat → Nat → Option PageAttrs) (space : Option Nat) (virt : Nat)
    (attrs : Option PageAttrs) : Nat → Nat → Option PageAttrs :=
  match space with
  | none => maps
  | some slot => Function.update maps slot (Function.update (maps slot) (virt / 4096) attrs)

/-- One call with its result; a failed creation gives -1. -/
def call (A : PageSource σ) (s : MappedSpaces σ) : ArmVmmOp σ → MappedSpaces σ × Int
  | .create =>
    match s.vmm.halMmuCreateSpace with
    | (m, none) => (⟨m, s.maps⟩, -1)
    | (m, some slot) => (⟨m, Function.update s.maps slot fun _ => none⟩, slot)
  | .map space virt phys flags =>
    match s.vmm.halMmuMapPageInSpace A space virt phys flags with
    | (m, result) =>
      (⟨m, if result = 0 then record s.maps space virt (some (PageAttrs.ofHal phys flags))
        else s.maps⟩, result)
  | .unmap space virt =>
    (⟨s.vmm.halMmuUnmapPageInSpace space virt, record s.maps space virt none⟩, 0)
  | .destroy space => (⟨s.vmm.halMmuDestroySpace A space, s.maps⟩, 0)
  | .others pmm => (⟨{ s.vmm with pmm := pmm }, s.maps⟩, 0)

/-- Calls name a live space or none, and the pages of the live tables stay with them. -/
def Live (held : σ → Nat → Prop) (s : MappedSpaces σ) : ArmVmmOp σ → Prop
  | .map (some slot) .. => s.vmm.used slot = true
  | .unmap (some slot) _ => s.vmm.used slot = true
  | .destroy (some slot) => s.vmm.used slot = true
  | .others pmm => ∀ slot i f, s.vmm.UserTable slot i f → held pmm f
  | _ => True

/-- Each page is mapped as it is asked for. -/
def AsAsked (A : PageSource σ) (s : MappedSpaces σ) : ArmVmmOp σ → Prop
  | .map (some slot) virt phys flags => s.vmm.MapsAsAsked A slot virt phys flags
  | _ => True

/-- What a call does not change: a failed one changes no translation, and none changes another space
or the kernel part of a space. -/
structure Frame (m m' : ArmVmm σ) (op : ArmVmmOp σ) (result : Int) : Prop where
  failed : result = -1 → ∀ slot va, m.used slot = true → va < 0xC0000000 →
    m'.translate slot va = m.translate slot va
  others : ∀ slot va, m.used slot = true → op.space ≠ some slot → va < 0xC0000000 →
    m'.translate slot va = m.translate slot va
  kernel : ∀ slot i, m.used slot = true → 3072 ≤ i → m'.l1 slot i = m.l1 slot i

/-- The spaces translate as they were mapped. -/
structure Inv (held : σ → Nat → Prop) (s : MappedSpaces σ) : Prop where
  vmm : ArmVmm.VmmInv held s.vmm
  exact : ∀ slot va, s.vmm.used slot = true → l1Index va < 3072 →
    s.vmm.translate slot va = s.maps slot (va / 4096)

theorem l1Index_lt_iff {va : Nat} : l1Index va < 3072 ↔ va < 0xC0000000 := by
  unfold l1Index
  omega

/-- A call that keeps every space. -/
theorem Frame.of_kept {m m' : ArmVmm σ} {result : Int}
    (h : ∀ slot, m.used slot = true → ArmVmm.SpaceKept m m' slot) : Frame m m' op result where
  failed _ slot va hused hva := (h slot hused).translate va (l1Index_lt_iff.mpr hva)
  others slot va hused _ hva := (h slot hused).translate va (l1Index_lt_iff.mpr hva)
  kernel slot i hused hi := (h slot hused).kernel i hi

/-- A call that changes one page, and what is recorded of it. -/
theorem Inv.page (h : Inv held s) {m : ArmVmm σ} {slot virt : Nat} {attrs : Option PageAttrs}
    (hinv : ArmVmm.VmmInv held m) (hused : m.used = s.vmm.used)
    (hread : ∀ slot' va, s.vmm.used slot' = true → l1Index va < 3072 →
      m.translate slot' va =
        if slot' = slot ∧ va / 4096 = virt / 4096 then attrs else s.vmm.translate slot' va) :
    Inv held ⟨m, record s.maps (some slot) virt attrs⟩ := by
  refine ⟨hinv, fun slot' va hlive hva => ?_⟩
  simp only [hused] at hlive
  simp only [record]
  rw [hread slot' va hlive hva]
  by_cases hslot : slot' = slot
  · subst hslot
    by_cases hpage : va / 4096 = virt / 4096
    · simp [hpage]
    · simp [hpage, h.exact slot' va hlive hva]
  · simp [hslot, h.exact slot' va hlive hva]

/-- A call that changes one page of a space keeps the others. -/
theorem Frame.of_page {m m' : ArmVmm σ} {slot virt : Nat} {attrs : Option PageAttrs} {result : Int}
    (hspace : op.space = some slot) (hresult : result ≠ -1)
    (hkernel : ∀ slot' i, m.used slot' = true → 3072 ≤ i → m'.l1 slot' i = m.l1 slot' i)
    (hread : ∀ slot' va, m.used slot' = true → l1Index va < 3072 →
      m'.translate slot' va =
        if slot' = slot ∧ va / 4096 = virt / 4096 then attrs else m.translate slot' va) :
    Frame m m' op result where
  failed hfail := absurd hfail hresult
  others slot' va hused hother hva := by
    rw [hread slot' va hused (l1Index_lt_iff.mpr hva), if_neg]
    rintro ⟨rfl, -⟩
    exact hother hspace
  kernel := hkernel

/-- One call keeps the spaces exact. -/
theorem Inv.call (hA : A.Lawful held) (h : Inv held s) (hop : Live held s op)
    (hasked : AsAsked A s op) :
    Inv held (s.call A op).1 ∧ Frame s.vmm (s.call A op).1.vmm op (s.call A op).2 := by
  cases op with
  | create =>
    simp only [MappedSpaces.call]
    rcases h.vmm.create with hnone | ⟨slot, hsome, hfree, hinv, hkept, hempty⟩
    · rw [hnone]
      exact ⟨⟨h.vmm, h.exact⟩, Frame.of_kept fun _ _ => ArmVmm.SpaceKept.refl ..⟩
    · rw [hsome]
      refine ⟨⟨hinv, fun slot' va hused hva => ?_⟩, Frame.of_kept hkept⟩
      by_cases hslot : slot' = slot
      · subst hslot
        simp [hempty va hva]
      · have hused' : s.vmm.used slot' = true := by
          rwa [ArmVmm.withSpace_used_of_ne hslot] at hused
        simp only [Function.update_of_ne hslot]
        rw [(hkept slot' hused').translate va hva]
        exact h.exact slot' va hused' hva
  | map space virt phys flags =>
    cases space with
    | none =>
      exact ⟨⟨h.vmm, h.exact⟩, Frame.of_kept fun _ _ => ArmVmm.SpaceKept.refl ..⟩
    | some slot =>
      obtain ⟨m, r, hmap, hinv, hlive, -, heffect⟩ := h.vmm.map hA hop hasked
      simp only [MappedSpaces.call, hmap]
      rcases heffect with ⟨rfl, hkept⟩ | ⟨rfl, hkernel, hread⟩
      · refine ⟨⟨hinv, fun slot' va hused' hva => ?_⟩, Frame.of_kept hkept⟩
        simp only [hlive] at hused'
        exact ((hkept slot' hused').translate va hva).trans (h.exact slot' va hused' hva)
      · exact ⟨h.page hinv hlive hread, Frame.of_page rfl (by decide) hkernel hread⟩
  | unmap space virt =>
    cases space with
    | none => exact ⟨⟨h.vmm, h.exact⟩, Frame.of_kept fun _ _ => ArmVmm.SpaceKept.refl ..⟩
    | some slot =>
      obtain ⟨hinv, hlive, hl1, hread⟩ := h.vmm.unmap hop virt
      refine ⟨h.page hinv hlive hread, Frame.of_page rfl ?_ (fun _ _ _ _ => ?_) hread⟩
      · simp [MappedSpaces.call]
      · exact congrFun (congrFun hl1 _) _
  | destroy space =>
    cases space with
    | none => exact ⟨⟨h.vmm, h.exact⟩, Frame.of_kept fun _ _ => ArmVmm.SpaceKept.refl ..⟩
    | some slot =>
      obtain ⟨hinv, hlive, hl1, hmem⟩ := h.vmm.destroy hA hop
      have hsame : ∀ slot' va, (s.vmm.halMmuDestroySpace A (some slot)).translate slot' va =
          s.vmm.translate slot' va := by
        intro slot' va
        unfold ArmVmm.translate
        rw [hl1, hmem]
      refine ⟨⟨hinv, fun slot' va hused hva => ?_⟩,
        Frame.of_kept fun slot' _ => ⟨fun va _ => hsame slot' va, fun i _ => ?_⟩⟩
      · refine (hsame slot' va).trans (h.exact slot' va ?_ hva)
        change (s.vmm.halMmuDestroySpace A (some slot)).used slot' = true at hused
        by_cases hslot : slot' = slot
        · simp [hlive, hslot] at hused
        · rwa [hlive, Function.update_of_ne hslot] at hused
      · exact congrFun (congrFun hl1 _) _
  | others pmm =>
    exact ⟨⟨h.vmm.setPmm hop, h.exact⟩, Frame.of_kept fun _ _ => ⟨fun _ _ => rfl, fun _ _ => rfl⟩⟩

/-- The step of a run. -/
def step (A : PageSource σ) (s : MappedSpaces σ) (op : ArmVmmOp σ) : Option (MappedSpaces σ) :=
  some (s.call A op).1

/-- The state before the first call. -/
def start (m : ArmVmm σ) : MappedSpaces σ := ⟨m.armVmmInit, fun _ _ => none⟩

theorem Inv.start (held : σ → Nat → Prop) (m : ArmVmm σ) : Inv held (start m) := by
  have hnone : ∀ slot, (MappedSpaces.start m).vmm.used slot ≠ true := fun _ => by
    simp [MappedSpaces.start, ArmVmm.armVmmInit]
  constructor
  · exact ⟨fun slot h => absurd h (hnone slot), fun slot _ h => absurd h (hnone slot),
      fun slot _ _ h => absurd h.used (hnone slot), fun slot _ _ _ _ h => absurd h.used (hnone slot),
      fun slot _ _ _ h => absurd h.used (hnone slot)⟩
  · exact fun slot _ h => absurd h (hnone slot)

/-- In every run whose mappings are made as asked for, a user address translates to what was mapped
there last and not since unmapped, no entry of a table can be written and executed by user mode,
a failed call changes no translation, and no call changes another space or the kernel part. -/
theorem arm_vmm_runs (hA : A.Lawful held) (m : ArmVmm σ)
    (h : Reach (step A) (fun s op => Live held s op ∧ AsAsked A s op) (start m) s) :
    (∀ slot va, s.vmm.used slot = true → va < 0xC0000000 →
      s.vmm.translate slot va = s.maps slot (va / 4096)) ∧
    (∀ slot i k, s.vmm.used slot = true → i < 3072 →
      l1Type (s.vmm.l1 slot i) = armL1TypeCoarse → k < 256 →
      ¬ UserWritableExec (loadWord s.vmm.mem ((l2PhysFromL1 (s.vmm.l1 slot i)).toNat + 4 * k))) ∧
    ∀ op, Live held s op → AsAsked A s op →
      Frame s.vmm (s.call A op).1.vmm op (s.call A op).2 := by
  have hinv : Inv held s := by
    apply h.invariant (Inv.start held m)
    intro s op s' hs hop hstep
    rw [← Option.some.inj hstep]
    exact (hs.call hA hop.1 hop.2).1
  refine ⟨fun slot va hused hva => hinv.exact slot va hused (l1Index_lt_iff.mpr hva), ?_,
    fun op hlive hasked => (hinv.call hA hlive hasked).2⟩
  intro slot i k hused hi hcoarse hk
  rcases hinv.vmm.entry slot i hused hi with hfault | ⟨f, hf⟩
  · rw [hfault] at hcoarse
    exact absurd hcoarse (by decide)
  · rw [hf.entry, l2PhysFromL1_userTable hf.frame, frameAddr_toNat hf.frame]
    exact hinv.vmm.wx slot i f k hf hk

/-- The tables of a machine with two pages above the first megabyte. -/
def smallVmm : ArmVmm ArmPmm := ⟨fun _ _ => 0#32, fun _ => false, fun _ => 0#32, fun _ => 0#8,
  ArmPmm.init 0x102000⟩

/-- An empty space. -/
def oneSpace : MappedSpaces ArmPmm := ((start smallVmm).call ArmPmm.source .create).1

/-- A space with a page of user data. -/
def dataMapped : MappedSpaces ArmPmm :=
  (oneSpace.call ArmPmm.source (.map (some 0) 0x1000 0x5000#32 halPageUserData)).1

private theorem oneSpace_used : oneSpace.vmm.used 0 = true := by decide +kernel
private theorem dataMapped_used : dataMapped.vmm.used 0 = true := by decide +kernel

theorem arm_vmm_runs_data :
    dataMapped.vmm.translate 0 0x1000 = some (PageAttrs.ofHal 0x5000#32 halPageUserData) := by
  have hstart : Reach (step ArmPmm.source)
      (fun s op => Live ArmPmm.Held s op ∧ AsAsked ArmPmm.source s op) (start smallVmm)
      (start smallVmm) := Reach.start
  have hcreate := hstart.next (i := ArmVmmOp.create) ⟨trivial, trivial⟩ rfl
  have hmap := hcreate.next (i := ArmVmmOp.map (some 0) 0x1000 0x5000#32 halPageUserData)
    ⟨oneSpace_used, fun _ _ _ _ => Or.inl (by decide)⟩ rfl
  exact ((arm_vmm_runs ArmPmm.lawful smallVmm hmap).1 0 0x1000 dataMapped_used (by decide)).trans
    (by decide +kernel)

/-- A page of kernel code mapped beside it can be written. -/
theorem arm_vmm_kernel_code_writable :
    let s := (dataMapped.call ArmPmm.source (.map (some 0) 0x2000 0x6000#32 halPageKernelCode)).1
    Reach (step ArmPmm.source) (Live ArmPmm.Held) (start smallVmm) s ∧
      s.vmm.translate 0 0x2000 = some ⟨0x6000#32, false, true, false⟩ ∧
      s.maps 0 2 = some ⟨0x6000#32, false, false, false⟩ := by
  have hstart : Reach (step ArmPmm.source) (Live ArmPmm.Held) (start smallVmm) (start smallVmm) :=
    Reach.start
  have hcreate := hstart.next (i := ArmVmmOp.create) trivial rfl
  have hmap := hcreate.next (i := ArmVmmOp.map (some 0) 0x1000 0x5000#32 halPageUserData)
    oneSpace_used rfl
  have hkernel := hmap.next (i := ArmVmmOp.map (some 0) 0x2000 0x6000#32 halPageKernelCode)
    dataMapped_used rfl
  exact ⟨hkernel, by decide +kernel, by decide +kernel⟩

end MappedSpaces
end EnclaveOS
