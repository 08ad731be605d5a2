import EnclaveOS.Arm.ArmElfSpec
import EnclaveOS.Foundation.Overlay

/-!
# ArmElfContents - the memory image of a loaded file on ARM

What user mode has at every address of a new space after `arm_elf_load`: the bytes of the image
and zeros in the pages of the segments, a zeroed stack, and nothing else.  Segments begin at page
bounds, so that segments without a common address have no common page.
-/

namespace EnclaveOS

open PageWord ByteMemory

/-- What user mode has at an address: its rights there, and the byte. -/
structure UserCell where
  user : Bool
  write : Bool
  exec : Bool
  byte : BitVec 8
deriving DecidableEq

/-- A byte in a page with the given flags. -/
def UserCell.ofHal (flags : Word) (byte : BitVec 8) : UserCell :=
  ⟨hasFlag flags halPageUser, hasFlag flags halPageWrite, hasFlag flags halPageExec, byte⟩

namespace ArmVmm

variable {σ : Type} {A : PageSource σ} {held : σ → Nat → Prop} {m m' : ArmVmm σ}
  {slot f g a va : Nat} {flags : Word}

/-- What an address of a space translates to. -/
def view (m : ArmVmm σ) (slot a : Nat) : Option UserCell :=
  (m.translate slot a).map fun attrs =>
    ⟨attrs.user, attrs.writable, !attrs.xn, m.mem (attrs.phys.toNat + a % 4096)⟩

/-- A frame that is held, and is no table. -/
structure DataFrame (held : σ → Nat → Prop) (m : ArmVmm σ) (f : Nat) : Prop where
  frame : f < 1048576
  held : held m.pmm f
  data : ∀ slot i, ¬m.UserTable slot i f

end ArmVmm

/-- The pages of a live space have data frames, each one its own. -/
structure ArmSpace {σ : Type} (held : σ → Nat → Prop) (slot : Nat) (m : ArmVmm σ) : Prop where
  inv : m.VmmInv held
  used : m.used slot = true
  data : ∀ a, l1Index a < 3072 → ∀ attrs, m.translate slot a = some attrs →
    ∃ f, attrs.phys = frameAddr f ∧ m.DataFrame held f
  apart : ∀ a a', l1Index a < 3072 → l1Index a' < 3072 → ∀ attrs attrs',
    m.translate slot a = some attrs → m.translate slot a' = some attrs' →
    attrs.phys = attrs'.phys → pageDown a = pageDown a'

namespace ArmVmm

variable {σ : Type} {A : PageSource σ} {held : σ → Nat → Prop} {m m' : ArmVmm σ}
  {slot f g a va : Nat} {flags : Word}

theorem view_congr (htranslate : m'.translate slot a = m.translate slot a)
    (hmem : ∀ attrs, m.translate slot a = some attrs →
      m'.mem (attrs.phys.toNat + a % 4096) = m.mem (attrs.phys.toNat + a % 4096)) :
    m'.view slot a = m.view slot a := by
  unfold view
  rw [htranslate]
  cases hattrs : m.translate slot a with
  | none => rfl
  | some attrs => simp only [Option.map_some, hmem attrs hattrs]

/-- Memory is written outside of the tables. -/
theorem VmmInv.writeMem (h : VmmInv held m) {mem : Bytes}
    (hmem : ∀ slot i g, m.UserTable slot i g →
      ∀ k < 4096, mem (g * 4096 + k) = m.mem (g * 4096 + k)) :
    VmmInv held { m with mem := mem } ∧
      ∀ slot a, m.used slot = true → l1Index a < 3072 →
        ArmVmm.translate { m with mem := mem } slot a = m.translate slot a := by
  have htable : ∀ slot i g,
      ArmVmm.UserTable { m with mem := mem } slot i g ↔ m.UserTable slot i g :=
    fun slot i g => ⟨fun h => ⟨h.used, h.index, h.frame, h.entry⟩,
      fun h => ⟨h.used, h.index, h.frame, h.entry⟩⟩
  have hword : ∀ slot i g, m.UserTable slot i g → ∀ k < 256,
      loadWord mem (g * 4096 + 4 * k) = loadWord m.mem (g * 4096 + 4 * k) := by
    intro slot i g hg k hk
    apply loadWord_congr
    intro j hj
    rw [Nat.add_assoc]
    exact hmem slot i g hg _ (by omega)
  constructor
  · exact {
      slots := h.slots
      entry := fun slot i hused hi => (h.entry slot i hused hi).imp_right
        (Exists.imp fun g => (htable slot i g).mpr)
      held := fun slot i g hg => h.held slot i g ((htable slot i g).mp hg)
      apart := fun slot i slot' i' g hg hg' =>
        h.apart slot i slot' i' g ((htable slot i g).mp hg) ((htable slot' i' g).mp hg')
      wx := fun slot i g k hg hk => by
        rw [hword slot i g ((htable slot i g).mp hg) k hk]
        exact h.wx slot i g k ((htable slot i g).mp hg) hk }
  · intro slot a hused ha
    exact h.translate_congr hused ha rfl fun g hg => hword _ _ _ hg _ (l2Index_lt a)

theorem DataFrame.of_pmm (hf : m.DataFrame held f) {pmm : σ} (hheld : held pmm f) :
    ArmVmm.DataFrame held { m with pmm := pmm } f :=
  ⟨hf.frame, hheld, fun slot i h => hf.data slot i ⟨h.used, h.index, h.frame, h.entry⟩⟩

theorem DataFrame.of_mem (hf : m.DataFrame held f) (mem : Bytes) :
    ArmVmm.DataFrame held { m with mem := mem } f :=
  ⟨hf.frame, hf.held, fun slot i h => hf.data slot i ⟨h.used, h.index, h.frame, h.entry⟩⟩

/-- A data frame is not the one of an entry that is written. -/
theorem DataFrame.setEntry (hf : m.DataFrame held f) {k : Nat} (hk : k < 256) (hne : f ≠ g)
    (entry : Word) : (m.setEntry g k entry).DataFrame held f ∧
      ∀ j < 4096, (m.setEntry g k entry).mem (f * 4096 + j) = m.mem (f * 4096 + j) := by
  refine ⟨⟨hf.frame, hf.held, fun slot i h => hf.data slot i (userTable_setEntry.mp h)⟩, ?_⟩
  intro j hj
  exact storeWord_of_outside (by omega)

/-- Mapping a page leaves the data frames. -/
theorem VmmInv.map_data (hA : A.Lawful held) (h : VmmInv held m) (hused : m.used slot = true)
    (hpage : ArmLoad.UserPage flags va) (phys : Word) (hf : m.DataFrame held f) :
    (m.halMmuMapPageInSpace A (some slot) va phys flags).1.DataFrame held f ∧
      ∀ j < 4096, (m.halMmuMapPageInSpace A (some slot) va phys flags).1.mem (f * 4096 + j) =
        m.mem (f * 4096 + j) := by
  unfold halMmuMapPageInSpace
  simp only [hpage.aligned, hpage.wx, Nat.not_le.mpr hpage.index, not_true_eq_false, if_false,
    ne_eq, Bool.not_true, Bool.false_eq_true]
  by_cases hphys : phys &&& 0xFFF#32 = 0#32
  swap
  · rw [if_pos hphys]
    exact ⟨hf, fun _ _ => rfl⟩
  rw [if_neg (not_not.mpr hphys)]
  -- with a table in place, its entry is written
  have hwrite : ∀ m₁ g, m₁.UserTable slot (l1Index va) g → f ≠ g → m₁.DataFrame held f →
      (if ¬l1Type (m₁.l1 slot (l1Index va)) = armL1TypeCoarse then ((m₁, -1) : ArmVmm σ × Int)
        else ({ m₁ with
          mem := storeWord m₁.mem ((l2PhysFromL1 (m₁.l1 slot (l1Index va))).toNat + 4 * l2Index va)
            (phys &&& 0xFFFFF000#32 ||| halFlagsToL2 flags) }, 0)) =
        (m₁.setEntry g (l2Index va) (smallPage phys flags), 0) := by
    intro m₁ g hg hne hdata
    rw [if_neg (not_not.mpr (by rw [hg.entry, l1Type_userTable hg.frame])), hg.entry,
      l2PhysFromL1_userTable hg.frame, frameAddr_toNat hg.frame]
    rfl
  rcases h.ensureTable_cases hA hused hpage.index fun _ => Or.inl hpage.user with
    ⟨-, hensure, hmono⟩ | ⟨-, -, g, hg, hfresh, hheld, hensure⟩ | ⟨g, hg, hensure⟩
  · rw [hensure]
    exact ⟨hf.of_pmm (hmono f hf.held), fun _ _ => rfl⟩
  · have hne : f ≠ g := by
      rintro rfl
      exact hfresh hf.held
    have htable : (m.withTable slot (l1Index va) g (A.allocPage m.pmm).1).UserTable slot
        (l1Index va) g := (userTable_withTable hused hpage.index hg).mpr (Or.inl ⟨rfl, rfl, rfl⟩)
    have hdata : (m.withTable slot (l1Index va) g (A.allocPage m.pmm).1).DataFrame held f := by
      refine ⟨hf.frame, (hheld f).mpr (Or.inr hf.held), fun slot' i hf' => ?_⟩
      rcases (userTable_withTable hused hpage.index hg).mp hf' with ⟨-, -, hsame⟩ | ⟨-, hold⟩
      · exact hne hsame
      · exact hf.data slot' i hold
    obtain ⟨hdata', hmem⟩ := hdata.setEntry (l2Index_lt va) hne (smallPage phys flags)
    rw [hensure]
    dsimp only
    rw [hwrite _ g htable hne hdata]
    refine ⟨hdata', fun j hj => (hmem j hj).trans ?_⟩
    exact if_neg (by omega)
  · have hne : f ≠ g := by
      rintro rfl
      exact hf.data _ _ hg
    rw [hensure]
    dsimp only
    rw [hwrite m g hg hne hf]
    exact hf.setEntry (l2Index_lt va) hne (smallPage phys flags)

end ArmVmm

namespace ArmSpace

variable {σ : Type} {A : PageSource σ} {held : σ → Nat → Prop} {m : ArmVmm σ}
  {slot f a va : Nat} {flags : Word}

theorem page_iff (hva : va % 4096 = 0) : a / 4096 = va / 4096 ↔ pageDown a = va := by
  unfold pageDown
  omega

/-- Other pages are taken from the allocator. -/
theorem setPmm (h : ArmSpace held slot m) (pmm : σ) (hheld : ∀ g, held m.pmm g → held pmm g) :
    ArmSpace held slot { m with pmm := pmm } where
  inv := h.inv.setPmm fun slot i f hf => hheld f (h.inv.held slot i f hf)
  used := h.used
  data a ha attrs hattrs := by
    obtain ⟨f, hphys, hf⟩ := h.data a ha attrs hattrs
    exact ⟨f, hphys, hf.of_pmm (hheld f hf.held)⟩
  apart := h.apart

/-- Bytes of a data frame are written. -/
theorem writeFrame (h : ArmSpace held slot m) (hf : m.DataFrame held f) {mem : Bytes}
    (hmem : ∀ x, x < f * 4096 ∨ f * 4096 + 4096 ≤ x → mem x = m.mem x) :
    ArmSpace held slot { m with mem := mem } ∧
      ∀ a, l1Index a < 3072 →
        ArmVmm.translate { m with mem := mem } slot a = m.translate slot a := by
  obtain ⟨hinv, htranslate⟩ := h.inv.writeMem fun slot i g hg k hk => hmem (g * 4096 + k) (by
    have hne : f ≠ g := by
      rintro rfl
      exact hf.data slot i hg
    omega)
  have hsame := fun a ha => htranslate slot a h.used ha
  refine ⟨⟨hinv, h.used, ?_, ?_⟩, hsame⟩
  · intro a ha attrs hattrs
    rw [hsame a ha] at hattrs
    obtain ⟨g, hphys, hg⟩ := h.data a ha attrs hattrs
    exact ⟨g, hphys, hg.of_mem mem⟩
  · intro a a' ha ha' attrs attrs' hattrs hattrs'
    rw [hsame a ha] at hattrs
    rw [hsame a' ha'] at hattrs'
    exact h.apart a a' ha ha' attrs attrs' hattrs hattrs'

/-- The frame of no page of the space. -/
def NotMapped (m : ArmVmm σ) (slot f : Nat) : Prop :=
  ∀ a, l1Index a < 3072 → ∀ attrs, m.translate slot a = some attrs → attrs.phys ≠ frameAddr f

/-- A data frame that is not mapped yet is mapped, and the other pages stay. -/
theorem mapPage (hA : A.Lawful held) (h : ArmSpace held slot m) (hpage : ArmLoad.UserPage flags va)
    (hf : m.DataFrame held f) (hnew : NotMapped m slot f) {m' : ArmVmm σ} {r : Int}
    (hmap : m.halMmuMapPageInSpace A (some slot) va (frameAddr f) flags = (m', r)) (hr : ¬r < 0) :
    ArmSpace held slot m' ∧
      (∀ g, m.DataFrame held g → m'.DataFrame held g ∧
        ∀ j < 4096, m'.mem (g * 4096 + j) = m.mem (g * 4096 + j)) ∧
      ∀ a, l1Index a < 3072 → m'.translate slot a =
        if pageDown a = va then some (.ofHal (frameAddr f) flags) else m.translate slot a := by
  have hkept := fun g (hg : m.DataFrame held g) => h.inv.map_data hA h.used hpage (frameAddr f) hg
  rw [hmap] at hkept
  obtain ⟨m₂, r₂, hmap₂, hinv, hused, -, heffect⟩ :=
    @ArmVmm.VmmInv.map _ _ _ _ _ _ (frameAddr f) _ hA h.inv h.used
      fun _ _ _ _ => Or.inl hpage.user
  rw [hmap] at hmap₂
  cases hmap₂
  rcases heffect with ⟨rfl, -⟩ | ⟨rfl, -, htranslate⟩
  · exact absurd (by decide) hr
  have hpages : ∀ a, l1Index a < 3072 → m'.translate slot a =
      if pageDown a = va then some (.ofHal (frameAddr f) flags) else m.translate slot a := by
    intro a ha
    rw [htranslate slot a h.used ha]
    simp only [true_and, page_iff hpage.aligned]
  refine ⟨⟨hinv, hused ▸ h.used, ?_, ?_⟩, hkept, hpages⟩
  · intro a ha attrs hattrs
    rw [hpages a ha] at hattrs
    split_ifs at hattrs with hsame
    · cases hattrs
      exact ⟨f, rfl, (hkept f hf).1⟩
    · obtain ⟨g, hphys, hg⟩ := h.data a ha attrs hattrs
      exact ⟨g, hphys, (hkept g hg).1⟩
  · intro a a' ha ha' attrs attrs' hattrs hattrs' hphys
    rw [hpages a ha] at hattrs
    rw [hpages a' ha'] at hattrs'
    split_ifs at hattrs hattrs' with hsame hsame' hsame'
    · rw [hsame, hsame']
    · cases hattrs
      exact absurd hphys.symm (hnew a' ha' attrs' hattrs')
    · cases hattrs'
      exact absurd hphys (hnew a ha attrs hattrs)
    · exact h.apart a a' ha ha' attrs attrs' hattrs hattrs' hphys

end ArmSpace

namespace ArmLoad

variable {σ : Type} {A : PageSource σ} {held : σ → Nat → Prop} {s t : ArmLoad σ} {image : ElfImage}
  {phdr : Elf32Phdr} {slot f a va : Nat} {flags pa : Word}

/-- One page of a loop is mapped to a frame of its own and cleared, the other addresses stay. -/
theorem takePage_view (hA : A.Lawful held) (h : ArmSpace held slot s.vmm)
    (hpage : UserPage flags va)
    (htake : s.takePage A slot flags va = (t, some pa)) :
    ArmSpace held slot t.vmm ∧
      (∃ f, pa = frameAddr f ∧ t.vmm.DataFrame held f) ∧
      (∀ a, pageDown a = va → t.vmm.translate slot a = some (.ofHal pa flags)) ∧
      ∀ a, l1Index a < 3072 → t.vmm.view slot a =
        if pageDown a = va then some (.ofHal flags 0#8) else s.vmm.view slot a := by
  rcases hA.alloc s.vmm.pmm with ⟨hzero, -⟩ | ⟨f, hpos, hf, hfresh, hres, hheld⟩
  · unfold takePage at htake
    dsimp only at htake
    rw [if_pos hzero] at htake
    cases htake
  have hne : (A.allocPage s.vmm.pmm).2 ≠ 0#32 := by
    rw [hres, Ne, frameAddr_eq_zero_iff hf]
    omega
  have h₁ := h.setPmm (A.allocPage s.vmm.pmm).1 fun g hg => (hheld g).mpr (Or.inr hg)
  have hdata₁ : ArmVmm.DataFrame held { s.vmm with pmm := (A.allocPage s.vmm.pmm).1 } f :=
    ⟨hf, (hheld f).mpr (Or.inl rfl), fun slot' i hg =>
      hfresh (h.inv.held slot' i f ⟨hg.used, hg.index, hg.frame, hg.entry⟩)⟩
  have hnew : ArmSpace.NotMapped { s.vmm with pmm := (A.allocPage s.vmm.pmm).1 } slot f := by
    intro a ha attrs hattrs hphys
    obtain ⟨g, hg, hdata⟩ := h.data a ha attrs hattrs
    rw [hg] at hphys
    have hsame := congrArg frameOf hphys
    rw [frameOf_frameAddr hdata.frame, frameOf_frameAddr hf] at hsame
    exact hfresh (hsame ▸ hdata.held)
  have hrun : ∀ m' r, ArmVmm.halMmuMapPageInSpace A { s.vmm with pmm := (A.allocPage s.vmm.pmm).1 }
      (some slot) va (frameAddr f) flags = (m', r) → s.takePage A slot flags va =
        if r < 0 then ({ s with vmm := { m' with pmm := A.freePage m'.pmm (frameAddr f) } }, none)
        else ({ s with
            vmm := { m' with mem := zeroPage m'.mem (f * 4096) }
            mapped := va :: s.mapped }, some (frameAddr f)) := by
    intro m' r hmap
    unfold takePage
    dsimp only
    rw [if_neg hne, hres, hmap, frameAddr_toNat hf]
  rcases hmap : ArmVmm.halMmuMapPageInSpace A { s.vmm with pmm := (A.allocPage s.vmm.pmm).1 }
    (some slot) va (frameAddr f) flags with ⟨m', r⟩
  rw [hrun m' r hmap] at htake
  by_cases hr : r < 0
  · rw [if_pos hr] at htake
    cases htake
  rw [if_neg hr] at htake
  cases htake
  obtain ⟨h₂, hkept, hpages⟩ := h₁.mapPage hA hpage hdata₁ hnew hmap hr
  have hzero : ∀ x, x < f * 4096 ∨ f * 4096 + 4096 ≤ x → zeroPage m'.mem (f * 4096) x = m'.mem x :=
    fun x hx => if_neg (by omega)
  obtain ⟨h₃, htranslate⟩ := h₂.writeFrame (hkept f hdata₁).1 hzero
  have hindex : ∀ a, pageDown a = va → l1Index a < 3072 := by
    rintro a rfl
    have hindex := hpage.index
    unfold l1Index pageDown at hindex
    unfold l1Index
    omega
  have hown : ∀ a, pageDown a = va → ArmVmm.translate
      { m' with mem := zeroPage m'.mem (f * 4096) } slot a = some (.ofHal (frameAddr f) flags) := by
    intro a ha
    rw [htranslate a (hindex a ha), hpages a (hindex a ha), if_pos ha]
  refine ⟨h₃, ⟨f, rfl, (hkept f hdata₁).1.of_mem _⟩, hown, fun a ha => ?_⟩
  by_cases hsame : pageDown a = va
  · rw [if_pos hsame, ArmVmm.view, hown a hsame, Option.map_some]
    simp only [PageAttrs.ofHal, UserCell.ofHal, Bool.not_not, frameAddr_toNat hf, zeroPage]
    rw [if_pos (by omega)]
  · rw [if_neg hsame]
    have hother : ArmVmm.translate { m' with mem := zeroPage m'.mem (f * 4096) } slot a =
        s.vmm.translate slot a := by
      rw [htranslate a ha, hpages a ha, if_neg hsame]
      rfl
    refine ArmVmm.view_congr hother fun attrs hattrs => ?_
    obtain ⟨g, hphys, hg⟩ := h₁.data a ha attrs hattrs
    have hgf : g ≠ f := by
      rintro rfl
      exact hnew a ha attrs hattrs hphys
    rw [hphys, frameAddr_toNat hg.frame]
    exact (hzero _ (by omega)).trans ((hkept g hg).2 _ (Nat.mod_lt _ (by decide)))

/-- The byte of a segment at an address behind its start: the image byte in front of
`p_filesz`, 0 behind. -/
def imageByte (image : ElfImage) (phdr : Elf32Phdr) (a : Nat) : BitVec 8 :=
  if a < phdr.pVaddr + phdr.pFilesz then image.bytes (phdr.pOffset + (a - phdr.pVaddr)) else 0#8

/-- What a segment puts at an address of its pages. -/
def imageCell (image : ElfImage) (phdr : Elf32Phdr) (a : Nat) : UserCell :=
  .ofHal (segmentFlagsToHal phdr.pFlags) (imageByte image phdr a)

theorem ofHal_segmentFlags (pFlags : Word) (byte : BitVec 8) :
    UserCell.ofHal (segmentFlagsToHal pFlags) byte =
      ⟨true, hasFlag pFlags pfW, hasFlag pFlags pfX, byte⟩ := by
  unfold UserCell.ofHal segmentFlagsToHal
  cases hasFlag pFlags pfW <;> cases hasFlag pFlags pfX <;> rfl

/-- The bytes of the file that belong into a page. -/
theorem copyPage_mem (haccept : SegmentAccepted phdr image.size) (hmemsz : phdr.pMemsz < 4294967296)
    (hsum : phdr.pOffset + phdr.pFilesz < 4294967296) (hva : va ∈ segmentPages phdr)
    (hf : f < 1048576) (s : ArmLoad σ) :
    ∃ mem, (s.copyPage image phdr va (frameAddr f)).vmm = { s.vmm with mem := mem } ∧
      (∀ x, x < f * 4096 ∨ f * 4096 + 4096 ≤ x → mem x = s.vmm.mem x) ∧
      ∀ j < 4096, mem (f * 4096 + j) = if va + j < phdr.pVaddr + phdr.pFilesz then
        image.bytes (phdr.pOffset + (va + j - phdr.pVaddr)) else s.vmm.mem (f * 4096 + j) := by
  rw [haccept.segmentPages_eq hmemsz] at hva
  obtain ⟨n, hn, rfl⟩ := List.mem_map.mp hva
  rw [copyPage_eq haccept hmemsz (List.mem_range.mp hn), frameAddr_toNat hf]
  by_cases hcopy : n * 4096 < phdr.pFilesz
  · have hoffset : wrap32 (phdr.pOffset + n * 4096) = phdr.pOffset + n * 4096 :=
      Nat.mod_eq_of_lt (by omega)
    rw [if_pos hcopy, hoffset]
    refine ⟨_, rfl, fun x hx => if_neg (by omega), fun j hj => ?_⟩
    unfold copyImage
    by_cases hin : phdr.pVaddr + n * 4096 + j < phdr.pVaddr + phdr.pFilesz
    · have hindex : phdr.pOffset + n * 4096 + (f * 4096 + j - f * 4096) =
          phdr.pOffset + (phdr.pVaddr + n * 4096 + j - phdr.pVaddr) := by omega
      rw [if_pos (by omega), if_pos hin, hindex]
    · rw [if_neg (by omega), if_neg hin]
  · rw [if_neg hcopy]
    exact ⟨s.vmm.mem, rfl, fun _ _ => rfl, fun j hj => (if_neg (by omega)).symm⟩

/-- One page of a segment. -/
theorem loadPage_view (hA : A.Lawful held) (h : ArmSpace held slot s.vmm)
    (haccept : SegmentAccepted phdr image.size) (hmemsz : phdr.pMemsz < 4294967296)
    (hsum : phdr.pOffset + phdr.pFilesz < 4294967296) (hva : va ∈ segmentPages phdr)
    (hload : s.loadPage A image slot phdr va = (t, true)) :
    ArmSpace held slot t.vmm ∧ ∀ a, l1Index a < 3072 → t.vmm.view slot a =
      if pageDown a = va then some (imageCell image phdr a) else s.vmm.view slot a := by
  have hpage := segment_userPage haccept hmemsz hva
  rcases htake : s.takePage A slot (segmentFlagsToHal phdr.pFlags) va with ⟨u, _ | pa⟩
  · rw [loadPage, htake] at hload
    cases hload
  rw [loadPage, htake] at hload
  cases hload
  obtain ⟨hu, ⟨f, rfl, hdata⟩, htranslate, hview⟩ := takePage_view hA h hpage htake
  obtain ⟨mem, hvmm, hout, hin⟩ := copyPage_mem haccept hmemsz hsum hva hdata.frame u
  obtain ⟨hspace, hsame⟩ := hu.writeFrame hdata hout
  rw [hvmm]
  refine ⟨hspace, fun a ha => ?_⟩
  by_cases hpa : pageDown a = va
  · rw [if_pos hpa, ArmVmm.view, hsame a ha, htranslate a hpa, Option.map_some]
    have hsplit : va + a % 4096 = a := by
      unfold pageDown at hpa
      omega
    have hmem := hin (a % 4096) (Nat.mod_lt _ (by decide))
    have hzero := hview a ha
    rw [if_pos hpa, ArmVmm.view, htranslate a hpa, Option.map_some, Option.some.injEq,
      UserCell.ofHal, UserCell.mk.injEq] at hzero
    obtain ⟨-, -, -, hbyte⟩ := hzero
    simp only [PageAttrs.ofHal, frameAddr_toNat hdata.frame] at hbyte
    rw [hsplit, hbyte] at hmem
    simp only [PageAttrs.ofHal, imageCell, UserCell.ofHal, Bool.not_not,
      frameAddr_toNat hdata.frame, hmem]
    rfl
  · rw [if_neg hpa]
    refine (ArmVmm.view_congr (hsame a ha) fun attrs hattrs => ?_).trans
      ((hview a ha).trans (if_neg hpa))
    obtain ⟨g, hphys, hg⟩ := hu.data a ha attrs hattrs
    have hgf : g ≠ f := by
      rintro rfl
      have hva' : l1Index va < 3072 := hpage.index
      have hvaDown : pageDown va = va := pageDown_eq_self hpage.aligned
      exact hpa ((hu.apart a va ha hva' attrs _ hattrs (htranslate va hvaDown) hphys).trans hvaDown)
    rw [hphys, frameAddr_toNat hg.frame]
    exact hout _ (by omega)

/-- A loop whose rounds lay their items over the space. -/
theorem forEach_overlay {covers : Nat → Nat → Prop} [∀ i a, Decidable (covers i a)]
    {value : Nat → Nat → Option UserCell} {body : ArmLoad σ → Nat → ArmLoad σ × Bool} {l : List Nat}
    (hbody : ∀ i ∈ l, ∀ s t, ArmSpace held slot s.vmm → body s i = (t, true) →
      ArmSpace held slot t.vmm ∧ ∀ a, l1Index a < 3072 → t.vmm.view slot a =
        if covers i a then value i a else s.vmm.view slot a)
    (h : ArmSpace held slot s.vmm) (hdone : forEach body l s = (t, true)) :
    ArmSpace held slot t.vmm ∧ ∀ a, l1Index a < 3072 →
      t.vmm.view slot a = overlay covers value l (s.vmm.view slot) a := by
  induction l generalizing s with
  | nil =>
    cases hdone
    exact ⟨h, fun _ _ => rfl⟩
  | cons i rest ih =>
    rw [List.forall_mem_cons] at hbody
    rw [forEach] at hdone
    rcases hround : body s i with ⟨u, _ | _⟩
    · rw [hround] at hdone
      cases hdone
    rw [hround] at hdone
    obtain ⟨hu, hview⟩ := hbody.1 s u h hround
    obtain ⟨ht, hrest⟩ := ih hbody.2 hu hdone
    exact ⟨ht, fun a ha => (hrest a ha).trans (overlay_congr (hview a ha))⟩

/-- The pages of a segment. -/
theorem loadSegment_view (hA : A.Lawful held) (h : ArmSpace held slot s.vmm)
    (haccept : SegmentAccepted phdr image.size) (hmemsz : phdr.pMemsz < 4294967296)
    (hsum : phdr.pOffset + phdr.pFilesz < 4294967296)
    (hload : s.loadSegment A image slot phdr = (t, true)) :
    ArmSpace held slot t.vmm ∧ ∀ a, l1Index a < 3072 → t.vmm.view slot a =
      if pageDown a ∈ segmentPages phdr then some (imageCell image phdr a)
      else s.vmm.view slot a := by
  obtain ⟨ht, hview⟩ := @forEach_overlay _ _ _ _ _ (fun va a => pageDown a = va) _
    (fun _ a => some (imageCell image phdr a)) _ _
    (fun va hva s t hs hround => loadPage_view hA hs haccept hmemsz hsum hva hround) h hload
  refine ⟨ht, fun a ha => ?_⟩
  rw [hview a ha, overlay_same]
  simp

/-- The stack. -/
theorem allocateUserStack_view (hA : A.Lawful held) (h : ArmSpace held slot s.vmm)
    (hstack : s.allocateUserStack A slot = (t, true)) :
    ArmSpace held slot t.vmm ∧ ∀ a, l1Index a < 3072 → t.vmm.view slot a =
      if pageDown a ∈ stackPages then some (.ofHal halPageUserData 0#8)
      else s.vmm.view slot a := by
  obtain ⟨ht, hview⟩ := @forEach_overlay _ _ _ _ _ (fun va a => pageDown a = va) _
    (fun _ _ => some (.ofHal halPageUserData 0#8)) _ _ (by
      intro va hva s t hs hround
      rcases htake : s.takePage A slot halPageUserData va with ⟨u, _ | pa⟩
      · rw [stackPage, htake] at hround
        cases hround
      · rw [stackPage, htake] at hround
        cases hround
        obtain ⟨hu, -, -, hview⟩ := takePage_view hA hs (stack_userPage hva) htake
        exact ⟨hu, hview⟩) h hstack
  refine ⟨ht, fun a ha => ?_⟩
  rw [hview a ha, overlay_same]
  simp

/-- A header of a segment that is loaded, with a page at an address. -/
def HeaderCovers (image : ElfImage) (i a : Nat) : Prop :=
  (image.phdr i).pType = ptLoad ∧ pageDown a ∈ segmentPages (image.phdr i)

instance (image : ElfImage) (i a : Nat) : Decidable (HeaderCovers image i a) :=
  inferInstanceAs (Decidable (_ ∧ _))

theorem validateSegment_eq_one {elfSize : Nat} (hval : validateSegment phdr elfSize = 1) :
    phdr.pType ≠ ptLoad := by
  intro htype
  unfold validateSegment at hval
  rw [if_neg (not_not.mpr htype)] at hval
  split_ifs at hval
  exact absurd hval (by decide)

/-- A header of the loop. -/
theorem loadHeader_view (hA : A.Lawful held) (h : ArmSpace held slot s.vmm) {i : Nat}
    (hsum : (image.phdr i).pType = ptLoad →
      (image.phdr i).pOffset + (image.phdr i).pFilesz < 4294967296)
    (hload : s.loadHeader A image slot i = (t, true)) :
    ArmSpace held slot t.vmm ∧ ∀ a, l1Index a < 3072 → t.vmm.view slot a =
      if HeaderCovers image i a then some (imageCell image (image.phdr i) a)
      else s.vmm.view slot a := by
  rcases loadHeader_cases A image slot i s with ⟨-, heq⟩ | ⟨hval, heq⟩ | ⟨hval, heq⟩
  · rw [heq] at hload
    cases hload
  · rw [heq] at hload
    cases hload
    have hskip := validateSegment_eq_one hval
    exact ⟨h, fun a _ => (if_neg fun hcovers => hskip hcovers.1).symm⟩
  · have haccept := validateSegment_eq_zero hval
    rcases hsegment : (s.readPhdr image i).loadSegment A image slot (image.phdr i) with ⟨u, ok⟩
    rw [heq u ok hsegment] at hload
    obtain ⟨hu, hok⟩ := Prod.mk.inj hload
    subst hok
    rw [if_pos rfl] at hu
    subst hu
    have hread : ArmSpace held slot (s.readPhdr image i).vmm := h
    obtain ⟨hspace, hview⟩ := loadSegment_view hA hread haccept (image.phdr_lt i).2.2.2
      (hsum haccept.load) hsegment
    have hiff : ∀ a, HeaderCovers image i a ↔ pageDown a ∈ segmentPages (image.phdr i) :=
      fun a => and_iff_right haccept.load
    refine ⟨hspace, fun a ha => (hview a ha).trans ?_⟩
    simp only [hiff]
    rfl

/-- The segments that a finished loop loaded were accepted. -/
theorem accepted_of_done {l : List Nat} (hdone : forEach (loadHeader A image slot) l s = (t, true))
    {i : Nat} (hi : i ∈ l) (htype : (image.phdr i).pType = ptLoad) :
    SegmentAccepted (image.phdr i) image.size := by
  induction l generalizing s with
  | nil => cases hi
  | cons j rest ih =>
    rw [forEach] at hdone
    rcases hround : s.loadHeader A image slot j with ⟨u, _ | _⟩
    · rw [hround] at hdone
      cases hdone
    rw [hround] at hdone
    rcases List.mem_cons.mp hi with rfl | hi
    · rcases loadHeader_cases A image slot i s with ⟨-, heq⟩ | ⟨hval, -⟩ | ⟨hval, -⟩
      · rw [heq] at hround
        cases hround
      · exact absurd htype (validateSegment_eq_one hval)
      · exact validateSegment_eq_zero hval
    · exact ih hdone hi

/-- The stack region. -/
def InStack (a : Nat) : Prop := userStackVirtTop - userStackSize ≤ a ∧ a < userStackVirtTop

/-- The ends in the image do not wrap, and the segments and the stack have no address in common. -/
structure LoadApart (image : ElfImage) : Prop where
  sums : ∀ i < image.ehdr.ePhnum, (image.phdr i).pType = ptLoad →
    (image.phdr i).pOffset + (image.phdr i).pFilesz < 4294967296
  apart : ∀ i < image.ehdr.ePhnum, ∀ j < image.ehdr.ePhnum, (image.phdr i).pType = ptLoad →
    (image.phdr j).pType = ptLoad → i ≠ j → ∀ a, (image.phdr i).Covers a → ¬(image.phdr j).Covers a
  stack : ∀ i < image.ehdr.ePhnum, (image.phdr i).pType = ptLoad →
    ∀ a, (image.phdr i).Covers a → ¬InStack a

/-- The pages of an accepted segment begin at addresses of the segment. -/
theorem covers_of_page (haccept : SegmentAccepted phdr image.size)
    (hmemsz : phdr.pMemsz < 4294967296) (hva : va ∈ segmentPages phdr) : phdr.Covers va := by
  rw [haccept.segmentPages_eq hmemsz] at hva
  obtain ⟨n, hn, rfl⟩ := List.mem_map.mp hva
  have hn := List.mem_range.mp hn
  unfold SegmentAccepted.pageCount at hn
  constructor
  · omega
  · omega

/-- The pages of an accepted segment are those between its start and its rounded end. -/
theorem mem_segmentPages (haccept : SegmentAccepted phdr image.size)
    (hmemsz : phdr.pMemsz < 4294967296) :
    pageDown a ∈ segmentPages phdr ↔ phdr.pVaddr ≤ a ∧ a < pageUp phdr.memEnd := by
  have haligned := haccept.aligned
  have hbound := haccept.memEnd
  rw [haccept.memEnd_eq hmemsz] at hbound
  unfold userSpaceEnd at hbound
  rw [haccept.segmentPages_eq hmemsz, haccept.memEnd_eq hmemsz, pageUp_eq (by omega), List.mem_map]
  unfold SegmentAccepted.pageCount pageDown
  constructor
  · rintro ⟨n, hn, hsame⟩
    have hn := List.mem_range.mp hn
    omega
  · rintro ⟨hlow, hhigh⟩
    exact ⟨(a - phdr.pVaddr) / 4096, List.mem_range.mpr (by omega), by omega⟩

theorem mem_stackPages : pageDown a ∈ stackPages ↔ InStack a := by
  unfold stackPages InStack pageDown userStackVirtTop userStackSize
  rw [List.mem_map]
  constructor
  · rintro ⟨n, hn, hsame⟩
    have hn := List.mem_range.mp hn
    omega
  · rintro ⟨hlow, hhigh⟩
    exact ⟨(a - (0xBFFFF000 - 64 * 1024)) / 4096, List.mem_range.mpr (by omega), by omega⟩

/-- A load that succeeds: the headers are laid over an empty space, and the stack over them. -/
theorem armElfLoad_view (hA : A.Lawful held) {m : ArmVmm σ} (h : m.VmmInv held)
    (hapart : LoadApart image) {result : ArmElfLoadResult}
    (hload : armElfLoad A image m = (s, some result)) :
    (∀ i < image.ehdr.ePhnum, (image.phdr i).pType = ptLoad →
        SegmentAccepted (image.phdr i) image.size) ∧
      ∀ a, l1Index a < 3072 → s.vmm.view result.space a =
        if pageDown a ∈ stackPages then some (.ofHal halPageUserData 0#8)
        else overlay (HeaderCovers image) (fun i a => some (imageCell image (image.phdr i) a))
          (List.range image.ehdr.ePhnum) (fun _ => none) a := by
  unfold armElfLoad at hload
  by_cases hsize : image.size < elf32HeaderSize
  · rw [if_pos hsize] at hload
    cases hload
  rw [if_neg hsize] at hload
  cases hvalid : validateElfHeader image.ehdr image.size
  · rw [hvalid, if_pos (by rfl)] at hload
    cases hload
  rw [hvalid, if_neg (by simp)] at hload
  rcases h.create with hnone | ⟨slot, hcreate, -, hinv, -, hempty⟩
  · rw [hnone] at hload
    cases hload
  rw [hcreate] at hload
  dsimp only at hload
  have hstart : ArmSpace held slot (m.withSpace slot) := by
    refine ⟨hinv, Function.update_self _ _ _, ?_, ?_⟩
    · intro a ha attrs hattrs
      rw [hempty a ha] at hattrs
      cases hattrs
    · intro a a' ha ha' attrs attrs' hattrs
      rw [hempty a ha] at hattrs
      cases hattrs
  rcases hheaders : forEach (loadHeader A image slot) (List.range image.ehdr.ePhnum)
    ⟨m.withSpace slot, [(0, elf32HeaderSize)], []⟩ with ⟨t, _ | _⟩
  · rw [hheaders] at hload
    cases hload
  rw [hheaders] at hload
  dsimp only at hload
  rcases hstack : t.allocateUserStack A slot with ⟨u, _ | _⟩
  · rw [hstack] at hload
    cases hload
  rw [hstack] at hload
  cases hload
  obtain ⟨ht, hview⟩ := forEach_overlay (fun i hi s t hs hround =>
    loadHeader_view hA hs (hapart.sums i (List.mem_range.mp hi)) hround) hstart hheaders
  obtain ⟨-, hview'⟩ := allocateUserStack_view hA ht hstack
  refine ⟨fun i hi => accepted_of_done hheaders (List.mem_range.mpr hi), fun a ha => ?_⟩
  rw [hview' a ha, hview a ha]
  congr 1
  apply overlay_congr
  change (m.withSpace slot).view slot a = none
  rw [ArmVmm.view, hempty a ha, Option.map_none]

/-- After a load that succeeds, the pages of the segments hold the bytes of the image and zeros
behind them, with the rights of the segment, the stack is mapped and zeroed, and no other user
address is mapped. -/
theorem arm_elf_load_contents (hA : A.Lawful held) {m : ArmVmm σ} (h : m.VmmInv held)
    (hapart : LoadApart image) {result : ArmElfLoadResult}
    (hload : armElfLoad A image m = (s, some result)) :
    (∀ i < image.ehdr.ePhnum, (image.phdr i).pType = ptLoad →
      ∀ a, (image.phdr i).pVaddr ≤ a → a < pageUp (image.phdr i).memEnd →
        s.vmm.view result.space a = some ⟨true, hasFlag (image.phdr i).pFlags pfW,
          hasFlag (image.phdr i).pFlags pfX, imageByte image (image.phdr i) a⟩) ∧
      (∀ a, InStack a → s.vmm.view result.space a = some ⟨true, true, false, 0#8⟩) ∧
      ∀ a < kernelSpaceStart, (s.vmm.view result.space a).isSome → InStack a ∨
        ∃ i < image.ehdr.ePhnum, (image.phdr i).pType = ptLoad ∧
          (image.phdr i).pVaddr ≤ a ∧ a < pageUp (image.phdr i).memEnd := by
  obtain ⟨haccepted, hview⟩ := armElfLoad_view hA h hapart hload
  have hstackPage : ∀ a, pageDown a ∈ stackPages → InStack (pageDown a) := by
    intro a ha
    rw [← mem_stackPages, pageDown_eq_self (pageDown_mod a)]
    exact ha
  refine ⟨fun i hi htype a hlow hhigh => ?_, fun a ha => ?_, fun a ha hsome => ?_⟩
  · have haccept := haccepted i hi htype
    have hpage := (mem_segmentPages haccept (image.phdr_lt i).2.2.2).mpr ⟨hlow, hhigh⟩
    have hcovers := covers_of_page haccept (image.phdr_lt i).2.2.2 hpage
    have huser : l1Index a < 3072 := by
      have hbound := haccept.memEnd
      have hend := hcovers.2
      rw [← haccept.memEnd_eq (image.phdr_lt i).2.2.2] at hend
      unfold userSpaceEnd at hbound
      unfold pageDown at hend
      unfold l1Index
      omega
    have hout : pageDown a ∉ stackPages := fun hin =>
      hapart.stack i hi htype _ hcovers (hstackPage a hin)
    rw [hview a huser, if_neg hout,
      overlay_of_unique (List.mem_range.mpr hi) (show HeaderCovers image i a from ⟨htype, hpage⟩),
      imageCell, ofHal_segmentFlags]
    rintro j hj ⟨htype', hpage'⟩
    have hj := List.mem_range.mp hj
    have hcovers' := covers_of_page (haccepted j hj htype') (image.phdr_lt j).2.2.2 hpage'
    by_contra hne
    exact hapart.apart j hj i hi htype' htype hne _ hcovers' hcovers
  · have huser : l1Index a < 3072 := by
      have hhigh := ha.2
      unfold userStackVirtTop at hhigh
      unfold l1Index
      omega
    rw [hview a huser, if_pos (mem_stackPages.mpr ha)]
    rfl
  · by_cases hin : pageDown a ∈ stackPages
    · exact Or.inl (mem_stackPages.mp hin)
    right
    by_contra hnone
    have hempty : ∀ i ∈ List.range image.ehdr.ePhnum, ¬HeaderCovers image i a := by
      rintro i hi ⟨htype, hpage⟩
      have hi := List.mem_range.mp hi
      exact hnone ⟨i, hi, htype,
        (mem_segmentPages (haccepted i hi htype) (image.phdr_lt i).2.2.2).mp hpage⟩
    have huser : l1Index a < 3072 := by
      unfold kernelSpaceStart at ha
      unfold l1Index
      omega
    rw [hview a huser, if_neg hin, overlay_of_forall_not hempty] at hsome
    cases hsome

/-- A program whose segment is its own file. -/
def tailImage : ElfImage where
  bytes k := BitVec.ofNat 8 ([0x7F, 0x45, 0x4C, 0x46, 1, 1, 1, 0, 0, 0, 0, 0, 0, 0, 0, 0,
    2, 0, 40, 0, 1, 0, 0, 0, 0, 0x80, 0, 0, 52, 0, 0, 0, 0, 0, 0, 0, 0, 0, 0, 0,
    52, 0, 32, 0, 1, 0, 0, 0, 0, 0, 0, 0,
    1, 0, 0, 0, 0, 0, 0, 0, 0, 0x80, 0, 0, 0, 0, 0, 0, 84, 0, 0, 0, 84, 0, 0, 0,
    5, 0, 0, 0, 0, 0x10, 0, 0].getD k 0)
  size := 84
  fits := wrapImage.fits

/-- Its load with 64 free pages. -/
def tailLoad : ArmLoad ArmPmm × Option ArmElfLoadResult :=
  armElfLoad ArmPmm.source tailImage (emptyVmm (ArmPmm.init 0x140000))

theorem vmmInv_empty (held : σ → Nat → Prop) (pmm : σ) : (emptyVmm pmm).VmmInv held := by
  have hnone : ∀ slot i f, ¬(emptyVmm pmm).UserTable slot i f := by
    intro slot i f h
    cases h.used
  constructor
  · intro slot hused
    cases hused
  · intro slot i hused
    cases hused
  · exact fun slot i f h => absurd h (hnone slot i f)
  · exact fun slot i slot' i' f h => absurd h (hnone slot i f)
  · exact fun slot i f k h => absurd h (hnone slot i f)

/-- The one header of the program. -/
theorem tailImage_phdr : tailImage.ehdr.ePhnum = 1 ∧ (tailImage.phdr 0).pVaddr = 0x8000 ∧
    (tailImage.phdr 0).pMemsz = 84 ∧ (tailImage.phdr 0).pOffset = 0 ∧
    (tailImage.phdr 0).pFilesz = 84 ∧ (tailImage.phdr 0).pType = ptLoad ∧
    (tailImage.phdr 0).pFlags = 5#32 := by
  decide +kernel

theorem tailImage_apart : LoadApart tailImage := by
  obtain ⟨hnum, hvaddr, hmemsz, hoffset, hfilesz, -⟩ := tailImage_phdr
  have hzero : ∀ i < tailImage.ehdr.ePhnum, i = 0 := fun i hi => by omega
  constructor
  · intro i hi _
    rw [hzero i hi, hoffset, hfilesz]
    decide
  · intro i hi j hj _ _ hne
    exact absurd ((hzero i hi).trans (hzero j hj).symm) hne
  · intro i hi _ a hcovers hin
    rw [hzero i hi, Elf32Phdr.Covers, hvaddr, hmemsz] at hcovers
    have hlow := hin.1
    unfold userStackVirtTop userStackSize at hlow
    omega

/-- An address behind the segment, in its page, is mapped too. -/
theorem arm_elf_maps_tail : ∃ result, armElfLoad ArmPmm.source tailImage
      (emptyVmm (ArmPmm.init 0x140000)) = (tailLoad.1, some result) ∧
    (emptyVmm (ArmPmm.init 0x140000)).VmmInv ArmPmm.Held ∧ LoadApart tailImage ∧
    ¬InStack 0x8054 ∧ (∀ i < tailImage.ehdr.ePhnum, ¬(tailImage.phdr i).Covers 0x8054) ∧
    (tailLoad.1.vmm.view result.space 0x8054).isSome := by
  obtain ⟨hnum, hvaddr, hmemsz, -⟩ := tailImage_phdr
  have hload : tailLoad.2.map ArmElfLoadResult.space = some 0 := by decide +kernel
  obtain ⟨result, hres, hspace⟩ := Option.map_eq_some_iff.mp hload
  refine ⟨result, Prod.ext rfl hres, vmmInv_empty _ _, tailImage_apart, ?_, ?_, ?_⟩
  · unfold InStack userStackVirtTop userStackSize
    omega
  · intro i hi hcovers
    have hzero : i = 0 := by omega
    rw [hzero, Elf32Phdr.Covers, hvaddr, hmemsz] at hcovers
    omega
  · rw [hspace]
    decide +kernel

/-- The first byte of the segment. -/
theorem arm_elf_load_contents_tail : ∃ result, armElfLoad ArmPmm.source tailImage
      (emptyVmm (ArmPmm.init 0x140000)) = (tailLoad.1, some result) ∧
    tailLoad.1.vmm.view result.space 0x8000 = some ⟨true, false, true, 0x7F#8⟩ := by
  obtain ⟨hnum, hvaddr, hmemsz, hoffset, hfilesz, htype, hflags⟩ := tailImage_phdr
  have hload : tailLoad.2.map ArmElfLoadResult.space = some 0 := by decide +kernel
  obtain ⟨result, hres, -⟩ := Option.map_eq_some_iff.mp hload
  have hrun : armElfLoad ArmPmm.source tailImage (emptyVmm (ArmPmm.init 0x140000)) =
      (tailLoad.1, some result) := Prod.ext rfl hres
  refine ⟨result, hrun, ((arm_elf_load_contents ArmPmm.lawful (vmmInv_empty _ _) tailImage_apart
    hrun).1 0 (by omega) htype 0x8000 hvaddr.le ?_).trans ?_⟩
  · rw [Elf32Phdr.memEnd, hvaddr, hmemsz]
    decide
  · rw [hflags, imageByte, hvaddr, hoffset, hfilesz]
    decide

end ArmLoad

end EnclaveOS
