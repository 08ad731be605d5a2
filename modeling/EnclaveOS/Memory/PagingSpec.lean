import EnclaveOS.Memory.OwnerSteps

/-!
# PagingSpec - the page functions keep the ownership invariant

One specification per function of `paging.c` that works on a single page
of a user half.  Each says that the invariant holds afterwards, that the kernel's
frames are untouched, and which entries and which contents changed.
-/

namespace EnclaveOS

open PageWord RefCount

theorem isPresent_tableEntry (w : Word) :
    isPresent (w ||| pagePresent ||| pageWrite ||| pageUser) = true := by
  simp only [isPresent, hasFlag_or, Bool.or_eq_true]
  exact Or.inl (Or.inl (Or.inr (by decide)))

theorem frameOf_tableEntry {t : Nat} (ht : t < 1048576) :
    frameOf (frameAddr t ||| pagePresent ||| pageWrite ||| pageUser) = t := by
  rw [frameOf_or (by decide), frameOf_or (by decide), frameOf_or (by decide),
    frameOf_frameAddr ht]

theorem pagePs_tableEntry {t : Nat} (ht : t < 1048576) :
    hasFlag (frameAddr t ||| pagePresent ||| pageWrite ||| pageUser) pagePs = false := by
  simp only [hasFlag_or, hasFlag_frameAddr ht (show IsLow pagePs by decide), Bool.false_or]
  decide

/-- The flags of a new user mapping. -/
structure MapFlags (flags : Word) : Prop where
  low : IsLow flags
  present : hasFlag flags pagePresent = true
  plain : hasFlag flags pageCow = false

namespace MapFlags

variable {flags : Word} {n : Nat}

theorem frame (hflags : MapFlags flags) (hn : n < 1048576) :
    frameOf (frameAddr n ||| flags) = n := by
  rw [frameOf_or hflags.low, frameOf_frameAddr hn]

theorem mapped (hflags : MapFlags flags) (n : Nat) :
    isPresent (frameAddr n ||| flags) = true := by
  simp only [isPresent, hasFlag_or, hflags.present, Bool.or_true]

theorem not_cow (hflags : MapFlags flags) (hn : n < 1048576) :
    hasFlag (frameAddr n ||| flags) pageCow = false := by
  simp only [hasFlag_or, hasFlag_frameAddr hn (show IsLow pageCow by decide), hflags.plain,
    Bool.or_self]

end MapFlags

theorem frameOf_protectedEntry (pte : Word) {flags : Word} (hflags : IsLow flags) :
    frameOf (protectedEntry pte flags) = frameOf pte := by
  have hlow : ∀ mask, IsLow (lowBits pte &&& mask) :=
    fun mask => isLow_and_left mask (isLow_lowBits pte)
  dsimp only [protectedEntry]
  split_ifs
  · rw [frameOf_or (hlow _), frameOf_or (hlow _), frameOf_or (isLow_and_left _ hflags),
      frameOf_physOf]
  · rw [frameOf_or (hlow _), frameOf_or (hlow _), frameOf_or hflags, frameOf_physOf]

theorem isPresent_protectedEntry (pte : Word) {flags : Word} (hflags : MapFlags flags) :
    isPresent (protectedEntry pte flags) = true := by
  have hkeep : hasFlag (flags &&& ~~~pageWrite) pagePresent = true := by
    rw [hasFlag_and_not_of_disjoint _ (by decide), hflags.present]
  dsimp only [protectedEntry, isPresent]
  split_ifs <;> simp only [hasFlag_or, hkeep, hflags.present, Bool.or_true, Bool.true_or]

private theorem cowPreserved_eq_zero (pte : Word) :
    lowBits pte &&& pageCow = 0#32 ↔ hasFlag pte pageCow = false := by
  rw [← hasFlag_lowBits pte (show IsLow pageCow by decide)]
  simp [hasFlag]

/-- A protection change keeps the copy-on-write marker. -/
theorem pageCow_protectedEntry (pte : Word) {flags : Word} (hflags : MapFlags flags) :
    hasFlag (protectedEntry pte flags) pageCow = hasFlag pte pageCow := by
  have hphys : hasFlag (physOf pte) pageCow = false := hasFlag_physOf _ (by decide)
  have hself : hasFlag (lowBits pte &&& pageCow) pageCow = hasFlag pte pageCow := by
    rw [hasFlag_and_of_subset _ (by decide), hasFlag_lowBits _ (by decide)]
  have hhw : hasFlag (lowBits pte &&& (pagePwt ||| pagePcd ||| pageGlobal)) pageCow = false :=
    hasFlag_and_of_disjoint _ (by decide)
  have hmask : hasFlag (flags &&& ~~~pageWrite) pageCow = false := by
    rw [hasFlag_and_not_of_disjoint _ (by decide), hflags.plain]
  dsimp only [protectedEntry]
  split_ifs <;>
    simp only [hasFlag_or, hphys, hself, hhw, hmask, hflags.plain, Bool.false_or, Bool.or_false]

/-- A marked page stays read-only under a protection change. -/
theorem pageWrite_protectedEntry (pte : Word) {flags : Word}
    (hcow : hasFlag pte pageCow = true) :
    hasFlag (protectedEntry pte flags) pageWrite = false := by
  have hne : lowBits pte &&& pageCow ≠ 0#32 := by
    rw [ne_eq, cowPreserved_eq_zero, hcow]
    rintro ⟨⟩
  have hphys : hasFlag (physOf pte) pageWrite = false := hasFlag_physOf _ (by decide)
  have hmark : hasFlag (lowBits pte &&& pageCow) pageWrite = false :=
    hasFlag_and_of_disjoint _ (by decide)
  have hhw : hasFlag (lowBits pte &&& (pagePwt ||| pagePcd ||| pageGlobal)) pageWrite = false :=
    hasFlag_and_of_disjoint _ (by decide)
  dsimp only [protectedEntry]
  rw [if_pos hne]
  simp only [hasFlag_or, hphys, hmark, hhw, hasFlag_and_not_self, Bool.or_self]

namespace VmInv

variable {m : Machine} {pds : Finset Nat} {own : Nat → Owner}

/-- An allocation fails and changes nothing, or turns a free frame into a held
one. -/
theorem allocPage (h : VmInv m pds own) :
    m.allocPage = (m, 0#32) ∨
    ∃ f, own f = .free ∧ f < pmmMaxPages ∧ frameAddr f ≠ 0#32 ∧
      m.allocPage = (m.withPmm (m.pmm.take f), frameAddr f) ∧
      VmInv (m.withPmm (m.pmm.take f)) pds (Function.update own f .held) ∧
      KernelFrame m own (m.withPmm (m.pmm.take f)) (Function.update own f .held) := by
  rcases m.allocPage_cases with halloc | ⟨f, hclear, hf, halloc⟩
  · exact Or.inl halloc
  · have hfree : own f = .free := (h.free_iff f hf).mpr hclear
    have hkernel : ∀ use, own f ≠ .kernel use := by rw [hfree]; rintro use ⟨⟩
    have hmax := h.lt_maxPages hkernel
    refine Or.inr ⟨f, hfree, hmax, ?_, halloc, h.allocHeld hclear hf⟩
    rw [ne_eq, frameAddr_eq_zero_iff hmax]
    exact h.ne_zero hkernel

/-- Outcome of `ensureTable` in a user half. -/
structure TableReady (m : Machine) (pds : Finset Nat) (own : Nat → Owner) (pd i : Nat)
    (m' : Machine) (ok : Bool) (own' : Nat → Owner) : Prop where
  inv : VmInv m' pds own'
  kernel : KernelFrame m own m' own'
  present : ok = true → isPresent (m'.mem pd i) = true
  owners : ∀ f, own f = .held ∨ own f = .page → own' f = own f
  entries : ∀ s ∈ userSites pds, siteEntry m' s = siteEntry m s
  data : ∀ f, own f = .held ∨ own f = .page → m'.mem f = m.mem f

/-- `ensureTable` keeps every mapping and every page. -/
theorem ensureTable (h : VmInv m pds own) {pd i : Nat} (hpd : pd ∈ pds) (hi : i < 768) :
    ∃ own', TableReady m pds own pd i (ensureTable m pd i).1 (ensureTable m pd i).2 own' := by
  unfold EnclaveOS.ensureTable
  cases hpde : isPresent (m.mem pd i) with
  | true =>
    exact ⟨own, h, KernelFrame.refl m own, fun _ => hpde, fun _ _ => rfl, fun _ _ => rfl,
      fun _ _ => rfl⟩
  | false =>
    rcases h.allocPage with halloc | ⟨t, hfree, hmax, hne, halloc, hheld, hkernel⟩
    · rw [halloc]
      exact ⟨own, h, KernelFrame.refl m own, by rintro ⟨⟩, fun _ _ => rfl,
        fun _ _ => rfl, fun _ _ => rfl⟩
    · rw [halloc]
      simp only [Bool.false_eq_true, if_false, hne, frameOf_frameAddr hmax]
      set m₁ := m.withPmm (m.pmm.take t) with hm₁
      -- the new frame is cleared, given to the directory entry, and linked
      have htheld : Function.update own t Owner.held t = .held := Function.update_self _ _ _
      obtain ⟨hclear, hkclear⟩ := hheld.writeData (Or.inl htheld) (m₁.clearFrame t) rfl rfl
        rfl (fun g hg => Machine.clearFrame_mem_of_ne hg)
      obtain ⟨htagged, hktag⟩ := hclear.retagTable htheld pd i
      have hpdne : pd ≠ t := by
        rintro rfl
        rw [h.dir pd hpd] at hfree
        cases hfree
      obtain ⟨hlink, hklink⟩ := htagged.linkTable (w := frameAddr t ||| pagePresent |||
          pageWrite ||| pageUser) hpd hi
        (by rw [Machine.clearFrame_mem_of_ne hpdne]; exact hpde) (Function.update_self _ _ _)
        (fun j _ => by rw [Machine.clearFrame_mem, if_pos rfl]; exact hasFlag_zero _)
        (frameOf_tableEntry hmax) (pagePs_tableEntry hmax)
      refine ⟨_, hlink, ((hkernel.trans hkclear).trans hktag).trans hklink, ?_, ?_, ?_, ?_⟩
      · intro _
        rw [Machine.setWord_mem_self]
        exact isPresent_tableEntry _
      · intro f hf
        have hft : f ≠ t := by
          rintro rfl
          rw [hfree] at hf
          simp at hf
        rw [Function.update_of_ne hft, Function.update_of_ne hft]
      · rintro ⟨a, b, c⟩ hs
        obtain ⟨ha, hb, hc⟩ := mem_userSites.mp hs
        by_cases hab : a = pd ∧ b = i
        · obtain ⟨rfl, rfl⟩ := hab
          rw [siteEntry_eq_none (m := m) (fun hp => by rw [hpde] at hp; cases hp)]
          apply siteEntry_eq_none
          intro _
          rw [Machine.pteAt, Machine.setWord_mem_self, frameOf_tableEntry hmax,
            Machine.setWord_mem_of_ne (Ne.symm hpdne), Machine.clearFrame_mem, if_pos rfl]
          exact hasFlag_zero _
        · have hane : a ≠ t := by
            rintro rfl
            rw [h.dir a ha] at hfree
            cases hfree
          have hentry : ((m₁.clearFrame t).setWord pd i (frameAddr t ||| pagePresent |||
              pageWrite ||| pageUser)).mem a b = m.mem a b := by
            rw [Machine.setWord_mem, if_neg hab, Machine.clearFrame_mem_of_ne hane]
            rfl
          simp only [siteEntry, Machine.pteAt, hentry]
          cases hpres : isPresent (m.mem a b) with
          | false => simp
          | true =>
            have htab := h.table a ha b hb hpres
            have hne₁ : frameOf (m.mem a b) ≠ t := by
              intro heq
              rw [heq, hfree] at htab
              cases htab
            have hne₂ : frameOf (m.mem a b) ≠ pd := by
              intro heq
              rw [heq, h.dir pd hpd] at htab
              cases htab
            rw [Machine.setWord_mem_of_ne hne₂, Machine.clearFrame_mem_of_ne hne₁]
            rfl
      · intro f hf
        have hft : f ≠ t := by
          rintro rfl
          rw [hfree] at hf
          simp at hf
        have hfpd : f ≠ pd := by
          rintro rfl
          rw [h.dir f hpd] at hf
          simp at hf
        rw [Machine.setWord_mem_of_ne hfpd, Machine.clearFrame_mem_of_ne hft]
        rfl

/-- Outcome of a write that leaves one new entry at `(pd, i, j)`. -/
structure EntryWritten (m : Machine) (pds : Finset Nat) (own : Nat → Owner) (pd i j : Nat)
    (w : Word) (m' : Machine) (own' : Nat → Owner) : Prop where
  inv : VmInv m' pds own'
  kernel : KernelFrame m own m' own'
  entries : ∀ s ∈ userSites pds, siteEntry m' s =
    Function.update (siteEntry m) (pd, i, j) (if isPresent w = true then some w else none) s
  data : ∀ f, own f = .held ∨ own f = .page → m'.mem f = m.mem f

/-- A page-table frame holds no data. -/
theorem data_ne_table (h : VmInv m pds own) {pd i f : Nat} (hpd : pd ∈ pds) (hi : i < 768)
    (hpde : isPresent (m.mem pd i) = true) (hf : own f = .held ∨ own f = .page) :
    f ≠ frameOf (m.mem pd i) := by
  rintro rfl
  rw [h.table pd hpd i hi hpde] at hf
  simp at hf

/-- Overwriting an entry with a held frame; a page mapped there only is freed. -/
theorem replaceEntry (h : VmInv m pds own) {pd i j n : Nat} {w : Word} (hpd : pd ∈ pds)
    (hi : i < 768) (hj : j < 1024) (hpde : isPresent (m.mem pd i) = true)
    (hn : own n = .held) (hw : isPresent w = true) (hframe : frameOf w = n)
    (hplain : hasFlag w pageCow = false)
    (hprivate : isPresent (m.pteAt pd i j) = true → hasFlag (m.pteAt pd i j) pageCow = false) :
    ∃ own', EntryWritten m pds own pd i j w
      (replaceEntry m (frameOf (m.mem pd i)) j w) own' := by
  have hmarked : hasFlag w pageCow = true → hasFlag w pageWrite = false := by
    rw [hplain]
    rintro ⟨⟩
  have hpdne := h.table_ne_dir hpd hi hpde hpd
  have hentries := fun s hs => h.siteEntry_setPte hpd hi hpde j w (s := s) hs
  have hdata : ∀ f, own f = .held ∨ own f = .page →
      (m.setWord (frameOf (m.mem pd i)) j w).mem f = m.mem f :=
    fun f hf => Machine.setWord_mem_of_ne (h.data_ne_table hpd hi hpde hf) j w
  unfold EnclaveOS.replaceEntry
  change ∃ own', EntryWritten m pds own pd i j w
    (if isPresent (m.pteAt pd i j) = true then _ else _) own'
  cases hpte : isPresent (m.pteAt pd i j) with
  | false =>
    obtain ⟨hinv, hkernel⟩ := h.mapHeld hpd hi hj hpde hpte hn hw hframe hmarked
    exact ⟨_, hinv, hkernel, hentries, hdata⟩
  | true =>
    -- the old page is dropped first, then the new frame is mapped
    have hs : (pd, i, j) ∈ userSites pds := mem_userSites.mpr ⟨hpd, hi, hj⟩
    have hentry : siteEntry m (pd, i, j) = some (m.pteAt pd i j) :=
      siteEntry_eq_some.mpr ⟨hpde, hpte, rfl⟩
    have hown := h.page _ hs _ hentry
    have hone := h.cow _ hs _ hentry (hprivate hpte)
    have hlimit : frameOf (m.pteAt pd i j) < m.pmm.maxPage :=
      h.lt_limit (by rw [hown]; rintro use ⟨⟩)
    have hbit := h.bit_set (by rw [hown]; rintro ⟨⟩) hlimit
    have hdrop := dropped_freePage (lt_of_lt_of_le hlimit h.limit) hlimit hone hbit
    obtain ⟨hinv₁, hkernel₁⟩ := h.unmapDrop hpd hi hj hpde hpte (hasFlag_zero _) hdrop
    rw [← physOf_eq_frameAddr] at hinv₁ hkernel₁
    have hpt : ((m.withPmm (pmmFreePage m.pmm (physOf (m.pteAt pd i j)))).setWord
        (frameOf (m.mem pd i)) j 0#32).mem pd i = m.mem pd i :=
      congrFun (Machine.setWord_mem_of_ne (m := m.withPmm _) hpdne j _) i
    have hn₁ : ownerAfterDrop own m.pmm (frameOf (m.pteAt pd i j)) n = .held := by
      have hne : n ≠ frameOf (m.pteAt pd i j) := by
        rintro rfl
        rw [hown] at hn
        cases hn
      rw [ownerAfterDrop, if_pos hone, Function.update_of_ne hne, hn]
    obtain ⟨hinv₂, hkernel₂⟩ := hinv₁.mapHeld (i := i) (j := j) (w := w) hpd hi hj
      (by rw [hpt]; exact hpde)
      (by rw [Machine.pteAt, hpt, Machine.setWord_mem_self]; exact hasFlag_zero _)
      hn₁ hw hframe hmarked
    rw [hpt, Machine.setWord_setWord] at hinv₂ hkernel₂
    exact ⟨_, hinv₂, hkernel₁.trans hkernel₂, hentries, hdata⟩

/-- `vmm_map_page_in_pd` below 3 GB never halts.  Without a page table the
frame stays held; otherwise exactly the addressed entry is new. -/
theorem vmmMapPageInPd (h : VmInv m pds own) {pd n : Nat} {flags : Word} (hpd : pd ∈ pds)
    (virt : Nat) (hvirt : virt < kernelSpaceStart) (hn : own n = .held) (hflags : MapFlags flags)
    (hprivate : ∀ w, siteEntry m (pd, dirIndex virt, tableIndex virt) = some w →
      hasFlag w pageCow = false) :
    (∃ m' own', vmmMapPageInPd m pd virt (frameAddr n) flags = .failed m' ∧
      VmInv m' pds own' ∧ KernelFrame m own m' own' ∧ own' n = .held ∧
      (∀ s ∈ userSites pds, siteEntry m' s = siteEntry m s) ∧
      (∀ f, own f = .held ∨ own f = .page → m'.mem f = m.mem f)) ∨
    (∃ m' own', vmmMapPageInPd m pd virt (frameAddr n) flags = .mapped m' ∧
      EntryWritten m pds own pd (dirIndex virt) (tableIndex virt) (frameAddr n ||| flags)
        m' own') := by
  have hi := (dirIndex_lt_768_iff virt).mpr hvirt
  have hj := tableIndex_lt virt
  have hmax : n < 1048576 := h.lt_maxPages (by rw [hn]; rintro use ⟨⟩)
  have hs : (pd, dirIndex virt, tableIndex virt) ∈ userSites pds := index_mem_userSites hpd hvirt
  obtain ⟨own₁, hready⟩ := h.ensureTable hpd hi
  unfold EnclaveOS.vmmMapPageInPd
  rw [if_neg (by rw [h.small pd hpd _ hi]; simp)]
  generalize hens : EnclaveOS.ensureTable m pd (dirIndex virt) = res at hready
  obtain ⟨m₁, ok⟩ := res
  cases ok with
  | false =>
    exact Or.inl ⟨m₁, own₁, rfl, hready.inv, hready.kernel, (hready.owners n (Or.inl hn)).trans hn, hready.entries,
      hready.data⟩
  | true =>
    have hpde₁ := hready.present rfl
    obtain ⟨own₂, hwritten⟩ := hready.inv.replaceEntry hpd hi hj hpde₁
      ((hready.owners n (Or.inl hn)).trans hn)
      (hflags.mapped n) (hflags.frame hmax) (hflags.not_cow hmax) (by
        intro hpte
        apply hprivate
        rw [← hready.entries _ hs]
        exact siteEntry_eq_some.mpr ⟨hpde₁, hpte, rfl⟩)
    refine Or.inr ⟨_, own₂, rfl, hwritten.inv, hready.kernel.trans hwritten.kernel, ?_, ?_⟩
    · intro s hs'
      rw [hwritten.entries s hs']
      by_cases hsame : s = (pd, dirIndex virt, tableIndex virt)
      · rw [hsame, Function.update_self, Function.update_self]
      · rw [Function.update_of_ne hsame, Function.update_of_ne hsame, hready.entries s hs']
    · intro f hf
      rw [← hready.data f hf]
      apply hwritten.data
      rwa [hready.owners f hf]

/-- A frame of the allocator is zeroed and mapped, or goes back. -/
theorem mapZeroed (h : VmInv m pds own) {pd n : Nat} {flags : Word} (hpd : pd ∈ pds) {virt : Nat}
    (hvirt : virt < kernelSpaceStart) (hflags : MapFlags flags)
    (hprivate : ∀ w, siteEntry m (pd, dirIndex virt, tableIndex virt) = some w →
      hasFlag w pageCow = false) (hfree : own n = .free)
    (hheld : VmInv (m.withPmm (m.pmm.take n)) pds (Function.update own n .held))
    (hkernel : KernelFrame m own (m.withPmm (m.pmm.take n)) (Function.update own n .held)) :
    (∃ m' own', EnclaveOS.vmmMapPageInPd ((m.withPmm (m.pmm.take n)).clearFrame n) pd virt
        (frameAddr n) flags = .failed m' ∧
      VmInv (m'.freePage (frameAddr n)) pds own' ∧
      KernelFrame m own (m'.freePage (frameAddr n)) own' ∧
      (∀ s ∈ userSites pds, siteEntry (m'.freePage (frameAddr n)) s = siteEntry m s) ∧
      ∀ f, own f = .page → (m'.freePage (frameAddr n)).mem f = m.mem f) ∨
    (∃ m' own', EnclaveOS.vmmMapPageInPd ((m.withPmm (m.pmm.take n)).clearFrame n) pd virt
        (frameAddr n) flags = .mapped m' ∧
      EntryWritten m pds own pd (dirIndex virt) (tableIndex virt) (frameAddr n ||| flags)
        m' own' ∧ m'.mem n = fun _ => 0#32) := by
  have hs : (pd, dirIndex virt, tableIndex virt) ∈ userSites pds := index_mem_userSites hpd hvirt
  set m₂ := (m.withPmm (m.pmm.take n)).clearFrame n
  have hnheld : Function.update own n Owner.held n = .held := Function.update_self _ _ _
  have hrest : ∀ g, g ≠ n → m₂.mem g = m.mem g :=
    fun g hg => Machine.clearFrame_mem_of_ne hg
  obtain ⟨h₂, hk₂⟩ := hheld.writeData (Or.inl hnheld) m₂ rfl rfl rfl hrest
  have hentries₂ : ∀ s ∈ userSites pds, siteEntry m₂ s = siteEntry m s :=
    fun s hs => h.siteEntry_congr_of_ne (Or.inl hfree) hrest hs
  have hdata₂ : ∀ f, own f = .held ∨ own f = .page → m₂.mem f = m.mem f ∧
      (Function.update own n Owner.held f = .held ∨
        Function.update own n Owner.held f = .page) := by
    intro f hf
    have hne : f ≠ n := by
      rintro rfl
      rw [hfree] at hf
      rcases hf with hf | hf <;> cases hf
    rw [Function.update_of_ne hne]
    exact ⟨hrest f hne, hf⟩
  rcases h₂.vmmMapPageInPd hpd virt hvirt hnheld hflags (by
      intro w hw
      rw [hentries₂ _ hs] at hw
      exact hprivate w hw) with
    ⟨m₃, own₃, hres, h₃, hk₃, hn₃, hentries₃, hdata₃⟩ | ⟨m₃, own₃, hres, hwritten⟩
  · -- no page table
    obtain ⟨h₄, hk₄⟩ := h₃.freeHeld hn₃
    refine Or.inl ⟨m₃, _, hres, h₄, ((hkernel.trans hk₂).trans hk₃).trans hk₄, ?_, ?_⟩
    · exact fun s hs => (hentries₃ s hs).trans (hentries₂ s hs)
    · intro f hf
      obtain ⟨hmem, hf₂⟩ := hdata₂ f (Or.inr hf)
      exact (hdata₃ f hf₂).trans hmem
  · refine Or.inr ⟨m₃, own₃, hres, ⟨hwritten.inv, (hkernel.trans hk₂).trans hwritten.kernel, ?_, ?_⟩,
      (hwritten.data n (Or.inl hnheld)).trans (Function.update_self _ _ _)⟩
    · intro s hs
      rw [hwritten.entries s hs]
      by_cases hsite : s = (pd, dirIndex virt, tableIndex virt)
      · rw [hsite, Function.update_self, Function.update_self]
      · rw [Function.update_of_ne hsite, Function.update_of_ne hsite, hentries₂ s hs]
    · intro f hf
      obtain ⟨hmem, hf₂⟩ := hdata₂ f hf
      exact (hwritten.data f hf₂).trans hmem

/-- `vmm_protect_page_in_pd` below 3 GB moves no frame. -/
theorem vmmProtectPageInPd (h : VmInv m pds own) {pd virt : Nat} {flags : Word} (hpd : pd ∈ pds)
    (hvirt : virt < kernelSpaceStart) (hflags : MapFlags flags) :
    VmInv (vmmProtectPageInPd m pd virt flags) pds own ∧
      KernelFrame m own (vmmProtectPageInPd m pd virt flags) own := by
  have hi := (dirIndex_lt_768_iff virt).mpr hvirt
  have hj := tableIndex_lt virt
  rw [vmmProtectPageInPd_eq]
  split_ifs with hpres
  · obtain ⟨hpde, hpte⟩ := hpres
    have hentry : siteEntry m (pd, dirIndex virt, tableIndex virt) = some _ :=
      siteEntry_eq_some.mpr ⟨hpde, hpte, rfl⟩
    apply h.setFlags hpd hi hj hpde hpte (isPresent_protectedEntry _ hflags)
      (frameOf_protectedEntry _ hflags.low)
    · rw [pageCow_protectedEntry _ hflags, frameOf_protectedEntry _ hflags.low]
      exact h.cow _ (mem_userSites.mpr ⟨hpd, hi, hj⟩) _ hentry
    · rw [pageCow_protectedEntry _ hflags]
      exact pageWrite_protectedEntry _
  · exact ⟨h, KernelFrame.refl m own⟩

/-- `vmm_unmap_and_free_page_in_pd` below 3 GB, on a page that no other entry
maps. -/
theorem vmmUnmapAndFreePageInPd (h : VmInv m pds own) {pd virt : Nat} (hpd : pd ∈ pds)
    (hvirt : virt < kernelSpaceStart)
    (hone : ∀ w, siteEntry m (pd, dirIndex virt, tableIndex virt) = some w →
      m.pmm.refcounts (frameOf w) = 1) :
    ∃ own', VmInv (vmmUnmapAndFreePageInPd m pd virt) pds own' ∧
      KernelFrame m own (vmmUnmapAndFreePageInPd m pd virt) own' := by
  have hi := (dirIndex_lt_768_iff virt).mpr hvirt
  have hj := tableIndex_lt virt
  rw [vmmUnmapAndFreePageInPd_eq]
  split_ifs with hpres
  · obtain ⟨hpde, hpte⟩ := hpres
    have hentry : siteEntry m (pd, dirIndex virt, tableIndex virt) = some _ :=
      siteEntry_eq_some.mpr ⟨hpde, hpte, rfl⟩
    have hown := h.page _ (mem_userSites.mpr ⟨hpd, hi, hj⟩) _ hentry
    have hlimit := h.lt_limit (f := frameOf _) (by rw [hown]; rintro use ⟨⟩)
    have hbit := h.bit_set (by rw [hown]; rintro ⟨⟩) hlimit
    have hdrop := dropped_freePage (lt_of_lt_of_le hlimit h.limit) hlimit (hone _ hentry) hbit
    rw [physOf_eq_frameAddr]
    exact ⟨_, h.unmapDrop hpd hi hj hpde hpte (hasFlag_zero _) hdrop⟩
  · exact ⟨own, h, KernelFrame.refl m own⟩

/-- What a new directory looks like. -/
structure NewDir (m : Machine) (pds : Finset Nat) (own : Nat → Owner) (n : Nat) (m' : Machine) :
    Prop where
  empty : ∀ i < 768, m'.mem n i = 0#32
  entries : ∀ s ∈ userSites pds, siteEntry m' s = siteEntry m s
  refcounts : ∀ f, own f = .page → m'.pmm.refcounts f = m.pmm.refcounts f
  data : ∀ f, own f = .page → m'.mem f = m.mem f

/-- `vmm_create_address_space`: a directory with an empty user half, or
nothing. -/
theorem vmmCreateAddressSpace (h : VmInv m pds own) :
    vmmCreateAddressSpace m = (m, none) ∨
    ∃ m' n own', vmmCreateAddressSpace m = (m', some n) ∧ n ∉ pds ∧
      VmInv m' (insert n pds) own' ∧ KernelFrame m own m' own' ∧ NewDir m pds own n m' := by
  unfold EnclaveOS.vmmCreateAddressSpace
  rcases h.allocPage with halloc | ⟨n, hfree, hmax, hne, halloc, hheld, hkernel⟩
  · rw [halloc]
    exact Or.inl rfl
  · rw [halloc]
    simp only [hne, if_false, frameOf_frameAddr hmax]
    set m₁ := m.withPmm (m.pmm.take n) with hm₁
    have hnheld : Function.update own n Owner.held n = .held := Function.update_self _ _ _
    have hnot : n ∉ pds := by
      intro hmem
      rw [h.dir n hmem] at hfree
      cases hfree
    have hboot : m.bootPageDirectory ≠ n := by
      have huse := h.boot
      rintro rfl
      rw [hfree] at huse
      cases huse
    have hrest : ∀ g, g ≠ n → ((m₁.clearFrame n).copyKernelHalf n).mem g = m.mem g := by
      intro g hg
      rw [Machine.copyKernelHalf_mem_of_ne hg, Machine.clearFrame_mem_of_ne hg]
      rfl
    obtain ⟨hwrite, hkwrite⟩ := hheld.writeData (Or.inl hnheld)
      ((m₁.clearFrame n).copyKernelHalf n) rfl rfl rfl hrest
    have hzero : ∀ i < 768, ((m₁.clearFrame n).copyKernelHalf n).mem n i = 0#32 := by
      intro i hi
      rw [Machine.copyKernelHalf_mem_self, if_neg (by omega), Machine.clearFrame_mem, if_pos rfl]
    have hhalf : ∀ i, 768 ≤ i → i < 1024 →
        ((m₁.clearFrame n).copyKernelHalf n).mem n i = m.mem m.bootPageDirectory i := by
      intro i hi hi'
      rw [Machine.copyKernelHalf_mem_self, if_pos ⟨hi, hi'⟩]
      exact congrFun (Machine.clearFrame_mem_of_ne hboot) i
    obtain ⟨hadd, hkadd⟩ := hwrite.addDir hnheld
      (fun i hi => by rw [hzero i hi]; exact isPresent_zero)
      (fun i hi => by rw [hzero i hi]; exact hasFlag_zero _)
      (fun i hi hi' => by rw [hhalf i hi hi']; exact (congrFun (hrest _ hboot) i).symm)
    have hpage : ∀ f, own f = .page → f ≠ n := by
      rintro f hf rfl
      rw [hfree] at hf
      cases hf
    exact Or.inr ⟨_, n, _, rfl, hnot, hadd, (hkernel.trans hkwrite).trans hkadd, hzero,
      fun s hs => h.siteEntry_congr_of_ne (Or.inl hfree) hrest hs,
      fun f hf => Function.update_of_ne (hpage f hf) _ _, fun f hf => hrest f (hpage f hf)⟩

end VmInv

end EnclaveOS
