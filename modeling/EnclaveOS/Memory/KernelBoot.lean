import EnclaveOS.Memory.BootSpec

/-!
# KernelBoot - the kernel half that paging_init builds

The loop over the direct map writes back what `boot.asm` left there.  The loop
over the framebuffer fills four tables, and links the last three of them.
-/

namespace EnclaveOS

open PageWord

/-- Every page of the direct map leads to its own frame. -/
def DirectMap (m : Machine) : Prop :=
  ∀ p < 131072, kernelPte m (kernelSpaceStart + p * 4096) = frameAddr p ||| BootImage.bootFlags

theorem dirIndex_direct (p : Nat) : dirIndex (kernelSpaceStart + p * 4096) = 768 + p / 1024 := by
  unfold dirIndex kernelSpaceStart
  omega

theorem tableIndex_direct (p : Nat) : tableIndex (kernelSpaceStart + p * 4096) = p % 1024 := by
  unfold tableIndex kernelSpaceStart
  omega

section Image

variable {image : BootImage} {ram : Nat → Nat → Word} {m : Machine}

theorem bootMem_dir (i : Nat) :
    image.bootMem ram image.bootPageDirectory i = image.bootDirEntry i := by
  rw [BootImage.bootMem, if_pos rfl]

theorem bootDirEntry_direct {k : Nat} (hk : k < 128) :
    image.bootDirEntry (768 + k) =
      frameAddr (image.bootPageTablesHh + k) ||| BootImage.bootFlags := by
  rw [BootImage.bootDirEntry, if_neg (by omega), if_pos (by omega), Nat.add_sub_cancel_left]

theorem bootMem_direct {k : Nat} (hk : k < 128) (j : Nat) :
    image.bootMem ram (image.bootPageTablesHh + k) j =
      frameAddr (k * 1024 + j) ||| BootImage.bootFlags := by
  have htables : image.bootPageTables = image.bootPageDirectory + 1 := rfl
  have htablesHh : image.bootPageTablesHh = image.bootPageDirectory + 129 := rfl
  rw [BootImage.bootMem, if_neg (by omega), if_neg (by omega), if_pos (by omega),
    Nat.add_sub_cancel_left]

/-- The entries of the direct map as `boot.asm` leaves them. -/
theorem bootMem_directMap (hmem : m.mem = image.bootMem ram)
    (hboot : m.bootPageDirectory = image.bootPageDirectory) :
    (∀ i, 768 ≤ i → i < 896 → isPresent (m.mem m.bootPageDirectory i) = true ∧
      frameOf (m.mem m.bootPageDirectory i) = image.bootPageTablesHh + (i - 768)) ∧
    DirectMap m := by
  have hfits := image.fits
  unfold pmmMaxPages at hfits
  have htablesHh : image.bootPageTablesHh = image.bootPageDirectory + 129 := rfl
  have hdir : ∀ i, 768 ≤ i → i < 896 → m.mem m.bootPageDirectory i =
      frameAddr (image.bootPageTablesHh + (i - 768)) ||| BootImage.bootFlags := by
    intro i hi hi'
    rw [hmem, hboot, bootMem_dir, ← bootDirEntry_direct (by omega), Nat.add_sub_cancel' hi]
  have hframe : ∀ i, 768 ≤ i → i < 896 →
      frameOf (m.mem m.bootPageDirectory i) = image.bootPageTablesHh + (i - 768) := by
    intro i hi hi'
    rw [hdir i hi hi']
    exact kernelMapFlags.frame (by omega)
  refine ⟨fun i hi hi' => ⟨?_, hframe i hi hi'⟩, fun p hp => ?_⟩
  · rw [hdir i hi hi']
    exact kernelMapFlags.mapped _
  · rw [kernelPte, Machine.pteAt, dirIndex_direct, tableIndex_direct,
      hframe _ (by omega) (by omega), hmem, Nat.add_sub_cancel_left, bootMem_direct (by omega)]
    congr 2
    omega

/-- The first loop of `paging_init` changes nothing. -/
theorem directLoop_eq (hmem : m.mem = image.bootMem ram)
    (hboot : m.bootPageDirectory = image.bootPageDirectory) :
    mapKernelRange kernelSpaceStart 0 (pagePresent ||| pageWrite) 131072 m = some m := by
  obtain ⟨hdir, hpte⟩ := bootMem_directMap hmem hboot
  refine foldlM_unchanged _ fun p hp => ?_
  have hp := List.mem_range.mp hp
  have hpres := (hdir (dirIndex (kernelSpaceStart + p * 4096))
    (by rw [dirIndex_direct]; omega) (by rw [dirIndex_direct]; omega)).1
  have hword := hpte p hp
  rw [vmmMapPage_eq _ _ hpres, Machine.setWord_self]
  rw [kernelPte, Machine.pteAt] at hword
  rw [hword, Nat.zero_add]
  rfl

end Image

/-- Table number `n` of the framebuffer. -/
def fillFb (m : Machine) (n : Nat) : Option Machine :=
  fillTable m (1012 + n) (fbPhysBase + n * 4194304) fbFlags

theorem fbFlags_mapFlags : MapFlags fbFlags :=
  ⟨by decide, by decide, by decide⟩

theorem pageUser_fbFlags : hasFlag fbFlags pageUser = true := by decide

section Fill

variable {m : Machine} {own : Nat → Owner} {n : Nat}

/-- Filling the table `t`, which is linked at entry `1012 + n`. -/
theorem BootInv.fill (h : BootInv m own n) (hn : n < 4) (m₁ : Machine) (t : Nat)
    {own' : Nat → Owner} (hinv : VmInv m₁ ∅ own') (hboot : m₁.bootPageDirectory = m.bootPageDirectory)
    (hslots : m₁.kstackBitmap = m.kstackBitmap)
    (hreserved : ∀ f, own f = .kernel .reserved → own' f = .kernel .reserved)
    (hplain : ∀ f, own' f = .free ∨ own' f = .kernel .reserved)
    (hmem : ∀ g, g ≠ m.bootPageDirectory → g ≠ t → m₁.mem g = m.mem g)
    (hdir : ∀ i, i ≠ 1012 + n → m₁.mem m.bootPageDirectory i = m.mem m.bootPageDirectory i)
    (hpres : isPresent (m₁.mem m.bootPageDirectory (1012 + n)) = true)
    (hframe : frameOf (m₁.mem m.bootPageDirectory (1012 + n)) = t)
    (hown : own' t = .kernel .reserved) (hne : t ≠ m.bootPageDirectory)
    (hnew : ∀ i, 768 ≤ i → i < 1024 → i ≠ 1012 + n →
      isPresent (m.mem m.bootPageDirectory i) = true → frameOf (m.mem m.bootPageDirectory i) ≠ t)
    (huser : hasFlag (m₁.mem m.bootPageDirectory (1012 + n)) pageUser = decide (1 ≤ n))
    (phys : Nat) (hdirect : DirectMap m) :
    BootInv (m₁.setTable t fun j =>
      if j < 1024 then BitVec.ofNat 32 (phys + j * 4096) ||| fbFlags else m₁.mem t j) own' (n + 1) ∧
    DirectMap (m₁.setTable t fun j =>
      if j < 1024 then BitVec.ofNat 32 (phys + j * 4096) ||| fbFlags else m₁.mem t j) := by
  set m' := m₁.setTable t fun j =>
    if j < 1024 then BitVec.ofNat 32 (phys + j * 4096) ||| fbFlags else m₁.mem t j with hm'
  have hboot' : m'.bootPageDirectory = m.bootPageDirectory := hboot
  have hdir' : ∀ i, m'.mem m'.bootPageDirectory i = m₁.mem m.bootPageDirectory i := by
    intro i
    rw [hboot', hm', Machine.setTable_mem, if_neg hne.symm]
  have hold : ∀ i, i ≠ 1012 + n → m'.mem m'.bootPageDirectory i = m.mem m.bootPageDirectory i :=
    fun i hi => (hdir' i).trans (hdir i hi)
  -- the other tables are not written
  have htable : ∀ i, 768 ≤ i → i < 1024 → i ≠ 1012 + n →
      isPresent (m.mem m.bootPageDirectory i) = true → ∀ j,
      m'.pteAt m'.bootPageDirectory i j = m.pteAt m.bootPageDirectory i j := by
    intro i hi hi' hne' hp j
    have hft := hnew i hi hi' hne' hp
    have hfb := (h.half.table i hi hi' hp).2
    rw [Machine.pteAt, hold i hne', hm', Machine.setTable_mem, if_neg hft, hmem _ hfb hft]
    rfl
  have hrow : ∀ j < 1024, m'.pteAt m'.bootPageDirectory (1012 + n) j =
      BitVec.ofNat 32 (phys + j * 4096) ||| fbFlags := by
    intro j hj
    rw [Machine.pteAt, hdir', hframe, hm', Machine.setTable_mem, if_pos rfl, if_pos hj]
  have hflag : ∀ j < 1024, ∀ {flag : Word}, hasFlag fbFlags flag = true →
      hasFlag (m'.pteAt m'.bootPageDirectory (1012 + n) j) flag = true := by
    intro j hj flag hf
    rw [hrow j hj, hasFlag_or, hf, Bool.or_true]
  refine ⟨⟨hinv.congrEmpty rfl rfl, ⟨?_, ?_, ?_, fun _ _ hf => hf.elim⟩,
    ⟨?_, ?_, ?_, ?_, ?_⟩, fun slot => (congrFun hslots slot).trans (h.slots slot), hplain⟩, ?_⟩
  · -- the tables of the kernel half are reserved
    intro i hi hi' hp
    by_cases hin : i = 1012 + n
    · subst hin
      rw [hdir', hframe, hboot']
      exact ⟨hown, hne⟩
    · rw [hold i hin] at hp ⊢
      rw [hboot']
      exact ⟨hreserved _ (h.half.table i hi hi' hp).1, (h.half.table i hi hi' hp).2⟩
  · -- no table is linked twice
    intro i i' hi hi₁ hi' hi₁' hp hp' heq
    by_cases hin : i = 1012 + n
    · by_cases hin' : i' = 1012 + n
      · rw [hin, hin']
      · rw [hold i' hin'] at hp' heq
        rw [hin, hdir', hframe] at heq
        exact absurd heq.symm (hnew i' hi' hi₁' hin' hp')
    · by_cases hin' : i' = 1012 + n
      · rw [hold i hin] at hp heq
        rw [hin', hdir', hframe] at heq
        exact absurd heq (hnew i hi hi₁ hin hp)
      · rw [hold i hin] at hp heq
        rw [hold i' hin'] at hp' heq
        exact h.half.inj i i' hi hi₁ hi' hi₁' hp hp' heq
  · intro i hi hi'
    rw [hold i (by omega)]
    exact h.half.direct i hi hi'
  · intro i hi hi'
    rw [hold i (by omega)]
    exact h.dir.direct i hi hi'
  · intro i hi hi'
    rw [hold i (by omega)]
    exact h.dir.gap i hi hi'
  · obtain rfl | hpos := Nat.eq_zero_or_pos n
    · rw [hdir']
      exact ⟨hpres, huser⟩
    · rw [hold 1012 (by omega)]
      exact h.dir.fbFirst
  · intro i hi hi'
    by_cases hin : i = 1012 + n
    · subst hin
      rw [hdir']
      refine ⟨hpres, ?_, fun j hj => ⟨hflag j hj fbFlags_mapFlags.present,
        hflag j hj pageUser_fbFlags⟩⟩
      rw [huser]
      exact decide_eq_true (by omega)
    · have hold' := h.dir.fbRest i hi (by omega)
      rw [hold i hin]
      refine ⟨hold'.1, hold'.2.1, fun j hj => ?_⟩
      rw [htable i (by omega) (by omega) hin hold'.1 j]
      exact hold'.2.2 j hj
  · intro i hi hi' hi₂
    rw [hold i (by omega)]
    exact h.dir.top i hi (by omega) hi₂
  · intro p hp
    have hlo : 768 ≤ dirIndex (kernelSpaceStart + p * 4096) := by rw [dirIndex_direct]; omega
    have hhi : dirIndex (kernelSpaceStart + p * 4096) < 896 := by rw [dirIndex_direct]; omega
    rw [kernelPte, htable _ hlo (by omega) (by omega) (h.half.direct _ hlo hhi)]
    exact hdirect p hp

/-- One table of the framebuffer: no memory, or one more filled table. -/
theorem BootInv.fillFb (h : BootInv m own n) (hn : n < 4) (hdirect : DirectMap m) :
    fillFb m n = none ∨
      ∃ m' own', EnclaveOS.fillFb m n = some m' ∧ BootInv m' own' (n + 1) ∧ DirectMap m' := by
  unfold EnclaveOS.fillFb fillTable
  rcases ensureTable_cases m m.bootPageDirectory (1012 + n) h.inv.limit h.inv.zeroBit with
    ⟨hpres, hres⟩ | ⟨habs, hres⟩ | ⟨f, habs, hclear, hf, hres⟩
  · -- the table of boot.asm
    right
    rw [hres]
    have hn0 : n = 0 := by
      by_contra hpos
      have habs := h.dir.top (1012 + n) (by omega) le_rfl (by omega)
      rw [hpres] at habs
      cases habs
    have ht := h.half.table (1012 + n) (by omega) (by omega) hpres
    refine ⟨_, own, rfl, h.fill hn m _ h.inv rfl rfl (fun _ hf => hf) h.plain (fun _ _ _ => rfl)
      (fun _ _ => rfl) hpres rfl ht.1 ht.2 ?_ ?_ _ hdirect⟩
    · intro i hi hi' hne hp heq
      exact hne (h.half.inj i _ hi hi' (by omega) (by omega) hp hpres heq)
    · subst hn0
      rw [h.dir.fbFirst.2]
      decide
  · left
    rw [hres]
  · -- a new table, taken from the pool
    right
    have hmax : f < 1048576 := lt_of_lt_of_le hf h.inv.limit
    have hn0 : 1 ≤ n := by
      by_contra hpos
      obtain rfl : n = 0 := by omega
      rw [h.dir.fbFirst.1] at habs
      cases habs
    have hfree := (h.inv.free_iff f hf).mpr hclear
    have hheld := (h.inv.allocHeld hclear hf).1
    have hown := hheld.holdToKernel (Function.update_self _ _ _) .reserved
    rw [Function.update_idem] at hown
    have hne : f ≠ m.bootPageDirectory := by
      rintro rfl
      rw [h.inv.boot] at hfree
      cases hfree
    have hinv₁ : VmInv (((m.withPmm (m.pmm.take f)).clearFrame f).setWord m.bootPageDirectory
        (1012 + n) (frameAddr f ||| pagePresent ||| pageWrite ||| pageUser)) ∅
        (Function.update own f (.kernel .reserved)) := hown.congrEmpty rfl rfl
    generalize hm₁ : ((m.withPmm (m.pmm.take f)).clearFrame f).setWord m.bootPageDirectory (1012 + n)
      (frameAddr f ||| pagePresent ||| pageWrite ||| pageUser) = m₁ at hres hinv₁
    have hentry : m₁.mem m.bootPageDirectory (1012 + n) =
        frameAddr f ||| pagePresent ||| pageWrite ||| pageUser := by
      rw [← hm₁, Machine.setWord_mem_self]
    have hboot : m₁.bootPageDirectory = m.bootPageDirectory := by
      rw [← hm₁]
      rfl
    have hslots : m₁.kstackBitmap = m.kstackBitmap := by
      rw [← hm₁]
      rfl
    rw [hres]
    dsimp only
    rw [hboot, hentry, frameOf_tableEntry hmax]
    refine ⟨_, _, rfl, h.fill hn m₁ f hinv₁ hboot hslots ?_ ?_ ?_ ?_ ?_ ?_
      (Function.update_self _ _ _) hne ?_ ?_ _ hdirect⟩
    · intro g hg
      rw [Function.update_of_ne, hg]
      rintro rfl
      rw [hfree] at hg
      cases hg
    · intro g
      by_cases hg : g = f
      · rw [hg, Function.update_self]
        exact Or.inr rfl
      · rw [Function.update_of_ne hg]
        exact h.plain g
    · intro g hg hgf
      rw [← hm₁, Machine.setWord_mem_of_ne hg, Machine.clearFrame_mem_of_ne hgf]
      rfl
    · intro i hi
      rw [← hm₁, Machine.setWord_mem, if_neg (by rintro ⟨-, rfl⟩; exact hi rfl),
        Machine.clearFrame_mem_of_ne hne.symm]
      rfl
    · rw [hentry]
      exact isPresent_tableEntry _
    · rw [hentry, frameOf_tableEntry hmax]
    · rintro i hi hi' - hp rfl
      rw [(h.half.table i hi hi' hp).1] at hfree
      cases hfree
    · rw [hentry, hasFlag_or]
      rw [decide_eq_true hn0, show hasFlag pageUser pageUser = true by decide, Bool.or_true]

/-- The framebuffer loop, from table `n` on. -/
theorem BootInv.fbLoop (h : BootInv m own n) (hdirect : DirectMap m) {rest : Nat}
    (hrest : n + rest = 4) :
    mapKernelRange ((1012 + n) * 4194304) (fbPhysBase + n * 4194304) fbFlags (rest * 1024) m =
        (List.range' n rest).foldlM EnclaveOS.fillFb m ∧
      ∀ m', (List.range' n rest).foldlM EnclaveOS.fillFb m = some m' →
        ∃ own', BootInv m' own' 4 ∧ DirectMap m' := by
  induction rest generalizing m own n with
  | zero =>
    obtain rfl : n = 4 := by omega
    refine ⟨by simp [mapKernelRange], ?_⟩
    rintro m' ⟨⟩
    exact ⟨own, h, hdirect⟩
  | succ rest ih =>
    have hn : n < 4 := by omega
    have htable : mapKernelRange ((1012 + n) * 4194304) (fbPhysBase + n * 4194304) fbFlags 1024 m =
        EnclaveOS.fillFb m n :=
      mapKernelRange_table _ _ h.inv.limit h.inv.zeroBit
        (h.inv.bit_set (by rw [h.inv.boot]; rintro ⟨⟩)) fun hp =>
          (h.half.table (1012 + n) (by omega) (by omega) hp).2
    have hvirt : (1012 + n) * 4194304 + 1024 * 4096 = (1012 + (n + 1)) * 4194304 := by omega
    have hphys : fbPhysBase + n * 4194304 + 1024 * 4096 = fbPhysBase + (n + 1) * 4194304 := by omega
    rw [Nat.succ_mul, Nat.add_comm (rest * 1024), mapKernelRange_add, htable, hvirt, hphys,
      List.range'_succ, List.foldlM_cons]
    rcases h.fillFb hn hdirect with hnone | ⟨m', own', hsome, hinv, hdirect'⟩
    · rw [hnone]
      exact ⟨rfl, fun m' hm' => by cases hm'⟩
    · rw [hsome]
      exact ih hinv hdirect' (by omega)

end Fill

/-- The machine after the reservations of `paging_init`. -/
def reservedMachine (image : BootImage) (info : BootInfo) (ram : Nat → Nat → Word) : Machine :=
  (image.machine info ram).withPmm (pagingReserve image (pmmInit info))

section Boot

variable (image : BootImage) (info : BootInfo) (ram : Nat → Nat → Word)

theorem reservedMachine_inv :
    BootInv (reservedMachine image info ram)
      (bootOwner (pagingReserve image (pmmInit info))) 0 ∧
      DirectMap (reservedMachine image info ram) := by
  have hfits := image.fits
  unfold pmmMaxPages at hfits
  have hfb : image.fbPageTable = image.bootPageDirectory + 257 := rfl
  have htables : image.bootPageTablesHh = image.bootPageDirectory + 129 := rfl
  obtain ⟨hcap, hzero⟩ := pmmInit_spec info
  obtain ⟨hcap', hzero', hbits⟩ := pagingReserve_spec image hcap hzero
  obtain ⟨hdir, hdirect⟩ :=
    @bootMem_directMap image ram (reservedMachine image info ram) rfl rfl
  have hentry : ∀ i, (reservedMachine image info ram).mem
      (reservedMachine image info ram).bootPageDirectory i = image.bootDirEntry i :=
    fun i => bootMem_dir i
  have hfbEntry : image.bootDirEntry 1012 =
      frameAddr image.fbPageTable ||| BootImage.bootFbFlags := by
    simp [BootImage.bootDirEntry]
  have hfbFlags : MapFlags BootImage.bootFbFlags := ⟨by decide, by decide, by decide⟩
  have hempty : ∀ i, 896 ≤ i → i ≠ 1012 → image.bootDirEntry i = 0#32 := by
    intro i hi hne
    rw [BootImage.bootDirEntry, if_neg (by omega), if_neg (by omega), if_neg hne]
  -- a present entry of the kernel half is one of the direct map, or that of the framebuffer
  have hcases : ∀ i, 768 ≤ i → isPresent (image.bootDirEntry i) = true → i < 896 ∨ i = 1012 := by
    intro i hi hp
    by_contra hno
    rw [hempty i (by omega) (by omega)] at hp
    simp at hp
  have hframe : ∀ i, 768 ≤ i → isPresent (image.bootDirEntry i) = true →
      frameOf (image.bootDirEntry i) = if i = 1012 then image.fbPageTable
        else image.bootPageTablesHh + (i - 768) := by
    intro i hi hp
    split_ifs with hfb'
    · rw [hfb', hfbEntry]
      exact hfbFlags.frame (by omega)
    · have hlt : i < 896 := (hcases i hi hp).resolve_right hfb'
      rw [← hentry]
      exact (hdir i hi hlt).2
  have hbpd : (reservedMachine image info ram).bootPageDirectory = image.bootPageDirectory := rfl
  have hpmm : (reservedMachine image info ram).pmm = pagingReserve image (pmmInit info) :=
    Machine.withPmm_pmm _ _
  have hatBoot : VmInv (reservedMachine image info ram) ∅
      (bootOwner (reservedMachine image info ram).pmm) := by
    refine VmInv.atBoot ?_ ?_ ?_
    · rw [hpmm]
      exact hcap'
    · rw [hpmm]
      exact hzero'
    · rw [hpmm, hbpd]
      exact hbits _ le_rfl (by omega)
  rw [hpmm] at hatBoot
  refine ⟨⟨hatBoot, ⟨?_, ?_, ?_, fun _ _ hf => hf.elim⟩,
    ⟨?_, ?_, ?_, ?_, ?_⟩, fun _ => rfl, bootOwner_ne_user _⟩, hdirect⟩
  · intro i hi hi' hp
    rw [hentry] at hp ⊢
    rw [hframe i hi hp]
    have hcase := hcases i hi hp
    refine ⟨?_, ?_⟩
    · rw [bootOwner, hbits _ (by split_ifs <;> omega) (by split_ifs <;> omega)]
      rfl
    · change _ ≠ image.bootPageDirectory
      split_ifs <;> omega
  · intro i i' hi hi₁ hi' hi₁' hp hp' heq
    rw [hentry] at hp hp' heq
    rw [hentry, hframe i hi hp, hframe i' hi' hp'] at heq
    have hcase := hcases i hi hp
    have hcase' := hcases i' hi' hp'
    split_ifs at heq <;> omega
  · exact fun i hi hi' => (hdir i hi hi').1
  · intro i hi hi'
    rw [hentry, show i = 768 + (i - 768) by omega, bootDirEntry_direct (by omega), hasFlag_or,
      hasFlag_frameAddr (by omega) (by decide)]
    decide
  · intro i hi hi'
    rw [hentry, hempty i hi (by omega)]
    exact isPresent_zero
  · rw [hentry, hfbEntry]
    refine ⟨hfbFlags.mapped _, ?_⟩
    rw [hasFlag_or, hasFlag_frameAddr (by omega) (by decide)]
    decide
  · intro i hi hi'
    omega
  · intro i hi _ hi'
    rw [hentry, hempty i (by omega) (by omega)]
    exact isPresent_zero

/-- The loops of `paging_init` fill the four tables of the framebuffer. -/
theorem kernelBoot_eq :
    kernelBoot image info ram =
      (List.range' 0 4).foldlM fillFb (reservedMachine image info ram) := by
  obtain ⟨hinv, hdirect⟩ := reservedMachine_inv image info ram
  have hloop := @directLoop_eq image ram (reservedMachine image info ram) rfl rfl
  have hfb := (hinv.fbLoop hdirect (Nat.zero_add 4)).1
  have hcount : 512 * 1024 * 1024 / 4096 = 131072 := by norm_num
  have hcount' : fbSizeMb * 1024 * 1024 / 4096 = 4 * 1024 := by norm_num [fbSizeMb]
  have hvirt : (1012 + 0) * 4194304 = fbVirtBase := by norm_num [fbVirtBase]
  rw [hvirt, Nat.zero_mul, Nat.add_zero] at hfb
  unfold kernelBoot pagingInit
  rw [hcount, hcount']
  change (mapKernelRange kernelSpaceStart 0 (pagePresent ||| pageWrite) 131072
    (reservedMachine image info ram)).bind _ = _
  rw [hloop, Option.bind_some, hfb]

/-- The invariants of the kernel that was started. -/
theorem kernelBoot_spec {m : Machine} (h : kernelBoot image info ram = some m) :
    ∃ own, BootInv m own 4 ∧ DirectMap m := by
  obtain ⟨hinv, hdirect⟩ := reservedMachine_inv image info ram
  rw [kernelBoot_eq] at h
  exact (hinv.fbLoop hdirect (Nat.zero_add 4)).2 m h

end Boot

end EnclaveOS
