import EnclaveOS.Process.ForkFailure

/-!
# ExecRollback - an image that cannot be loaded

The loader stops where it is, and `sys_exec` destroys the directory that it has begun.  Two
segments may share a page, and then a page is mapped again while the image is loaded.
-/

namespace EnclaveOS

open PageWord RefCount

/-! ## Mapping a page again -/

namespace SpaceOwes

variable {m₀ m m' : Machine} {pd i j : Nat} {w : Word} {held : List Nat}

/-- A page that is taken out of a table is in the hands of the caller. -/
theorem leave (h : SpaceOwes m₀ m pd held) (hi : i < 768) (hj : j < 1024)
    (hpde : isPresent (m.mem pd i) = true) (hpte : isPresent (m.pteAt pd i j) = true) :
    SpaceOwes m₀ (m.setWord (frameOf (m.mem pd i)) j 0#32) pd
      (frameOf (m.pteAt pd i j) :: held) := by
  have hdir : (m.setWord (frameOf (m.mem pd i)) j 0#32).mem pd = m.mem pd :=
    Machine.setWord_mem_of_ne (Ne.symm (h.shape.apart i hi hpde)) j _
  have hshape : SpaceShape (m.setWord (frameOf (m.mem pd i)) j 0#32) pd :=
    h.shape.congr fun k _ => congrFun hdir k
  have habsent : isPresent ((m.setWord (frameOf (m.mem pd i)) j 0#32).pteAt pd i j) = false := by
    rw [Machine.pteAt, hdir, Machine.setWord_mem_self]
    exact isPresent_zero
  -- the entry written back gives the space of before
  have hback : (m.setWord (frameOf (m.mem pd i)) j 0#32).setWord (frameOf (m.mem pd i)) j
      (m.pteAt pd i j) = m := by
    rw [Machine.setWord_setWord]
    exact Machine.setWord_self rfl
  have hframes := spaceFrames_enter hshape hi hj (by rwa [hdir]) habsent hpte
  rw [hdir, hback] at hframes
  refine ⟨hshape, ?_, h.boot, h.dirFresh, ?_⟩
  · apply h.owes.perm
    exact (hframes.append_left held).trans List.perm_middle
  · intro k hk hpres
    rw [hdir] at hpres ⊢
    exact h.tableFresh k hk hpres

/-- A frame of the caller is entered into a table, and the page that was there goes back. -/
theorem replace (h : SpaceOwes m₀ m pd (frameOf w :: held)) (hm₀ : PoolReady m₀) (hi : i < 768)
    (hj : j < 1024) (hpde : isPresent (m.mem pd i) = true) (hw : isPresent w = true)
    (hone : isPresent (m.pteAt pd i j) = true → m.pmm.refcounts (frameOf (m.pteAt pd i j)) = 1) :
    SpaceOwes m₀ (replaceEntry m (frameOf (m.mem pd i)) j w) pd held := by
  unfold replaceEntry
  cases hpte : isPresent (m.pteAt pd i j) with
  | false =>
    rw [if_neg (by rw [show m.mem _ j = m.pteAt pd i j from rfl, hpte]; exact Bool.false_ne_true)]
    exact h.enter hi hj hpde hpte hw
  | true =>
    have hdir : (m.setWord (frameOf (m.mem pd i)) j 0#32).mem pd = m.mem pd :=
      Machine.setWord_mem_of_ne (Ne.symm (h.shape.apart i hi hpde)) j _
    have hgiven := (h.leave hi hj hpde hpte).giveBack hm₀ (hone hpte)
    have hentered := hgiven.enter hi hj (by rw [Machine.freePage_mem, hdir]; exact hpde)
      (by
        rw [Machine.pteAt, Machine.freePage_mem, hdir, Machine.setWord_mem_self]
        exact isPresent_zero) hw
    rw [Machine.freePage_mem, hdir] at hentered
    -- giving the page back does not touch the table
    have hsame : ((m.setWord (frameOf (m.mem pd i)) j 0#32).freePage
        (frameAddr (frameOf (m.pteAt pd i j)))).setWord (frameOf (m.mem pd i)) j w =
        (m.freePage (frameAddr (frameOf (m.pteAt pd i j)))).setWord (frameOf (m.mem pd i)) j w :=
      (m.freePage (frameAddr (frameOf (m.pteAt pd i j)))).setWord_setWord _ _ _ _
    change isPresent (m.mem (frameOf (m.mem pd i)) j) = true at hpte
    rw [if_pos hpte, physOf_eq_frameAddr]
    exact hsame ▸ hentered

/-- `vmm_map_page_in_pd` with a frame of the caller, on a page that no one else maps. -/
theorem remap (hm₀ : PoolReady m₀) {f virt : Nat} {flags : Word}
    (h : SpaceOwes m₀ m pd (f :: held)) (hvirt : virt < kernelSpaceStart) (hflags : MapFlags flags)
    (hone : ∀ w, siteEntry m (pd, dirIndex virt, tableIndex virt) = some w →
      m.pmm.refcounts (frameOf w) = 1) :
    (∃ m', vmmMapPageInPd m pd virt (frameAddr f) flags = .mapped m' ∧ SpaceOwes m₀ m' pd held) ∨
    vmmMapPageInPd m pd virt (frameAddr f) flags = .failed m := by
  cases hentry : siteEntry m (pd, dirIndex virt, tableIndex virt) with
  | none => exact h.map hm₀ hvirt hentry hflags.low hflags.present
  | some w =>
    have hi := (dirIndex_lt_768_iff virt).mpr hvirt
    have hmax : f < 1048576 := lt_of_lt_of_le (h.owes.below f List.mem_cons_self) hm₀.sound.limit
    obtain ⟨hpde, -, hpte⟩ := siteEntry_eq_some.mp hentry
    have hready : EnclaveOS.ensureTable m pd (dirIndex virt) = (m, true) := if_pos hpde
    left
    unfold vmmMapPageInPd
    rw [if_neg (by rw [h.shape.small _ hi]; exact Bool.false_ne_true), hready]
    refine ⟨_, rfl, SpaceOwes.replace ?_ hm₀ hi (tableIndex_lt virt) hpde ?_ ?_⟩
    · rwa [frameOf_or hflags.low, frameOf_frameAddr hmax]
    · simp only [isPresent, hasFlag_or, hflags.present, Bool.or_true]
    · intro _
      rw [hpte]
      exact hone w hentry

end SpaceOwes

/-! ## The load -/

/-- Between two steps of a load that began in `m₁`, into a directory made in `m₀`: the allocator
owes the references of the directory. -/
def Loading (m₀ m₁ : Machine) (own₁ : Nat → Owner) (pds : Finset Nat) (pd : Nat)
    (s : ElfState) : Prop :=
  ∃ own, ElfInv m₁ own₁ pds pd s own ∧ SpaceOwes m₀ s.machine pd []

namespace Loading

variable {m₀ m₁ : Machine} {own₁ : Nat → Owner} {pds : Finset Nat} {pd : Nat} {s : ElfState}

theorem setVmas (h : Loading m₀ m₁ own₁ pds pd s) (vmas : List Vma) (k : Kmalloc) :
    Loading m₀ m₁ own₁ pds pd { s with vmaHead := vmas, kmallocs := k } := by
  obtain ⟨own, hinv, howes⟩ := h
  exact ⟨own, hinv.setVmas vmas k, howes⟩

/-- One page of the mapping loop. -/
theorem mapPage (hm₀ : PoolReady m₀) (h : Loading m₀ m₁ own₁ pds pd s) (hpd : pd ∈ pds)
    {flags : Word} {addr : Nat} (haddr : addr < kernelSpaceStart) (haligned : addr % 4096 = 0)
    (hflags : MapFlags flags) : Loading m₀ m₁ own₁ pds pd (elfMapPage pd flags s addr).1 := by
  obtain ⟨own, hinv, howes⟩ := h
  obtain ⟨-, own', hinv'⟩ := hinv.mapPage hpd haddr haligned hflags
  refine ⟨own', hinv', ?_⟩
  unfold elfMapPage
  rcases s.machine.allocPage_cases with halloc | ⟨f, hfree, hlimit, halloc⟩
  · rw [halloc]
    exact howes
  rw [halloc]
  dsimp only
  have hmax : f < 1048576 :=
    lt_of_lt_of_le hlimit (howes.owes.sound hm₀.sound).limit
  by_cases hzero : frameAddr f = 0#32
  · rw [(frameAddr_eq_zero_iff hmax).mp hzero, hinv.inv.zeroBit] at hfree
    cases hfree
  rw [if_neg hzero, frameOf_frameAddr hmax]
  have hother : ∀ g, s.machine.pmm.bitmap g = true → g ≠ f := by
    rintro g hg rfl
    simp [hfree] at hg
  set cleared := (s.machine.withPmm (s.machine.pmm.take f)).clearFrame f with hcleared
  have hmem : ∀ g, g ≠ f → cleared.mem g = s.machine.mem g :=
    fun g hg => Machine.clearFrame_mem_of_ne hg
  have hheld : SpaceOwes m₀ cleared pd [f] :=
    (howes.take hm₀ hfree hlimit).congrMem rfl rfl (hmem pd (hother pd howes.dir_used))
      fun i hi hpres => hmem _ (hother _ (howes.table_used hi hpres))
  have hsite := index_mem_userSites hpd haddr
  -- a page that is mapped already belongs to this directory alone
  have hone : ∀ w, siteEntry cleared (pd, dirIndex addr, tableIndex addr) = some w →
      cleared.pmm.refcounts (frameOf w) = 1 := by
    intro w hw
    have hfreed : own f = .free := (hinv.inv.free_iff f hlimit).mpr hfree
    rw [hinv.inv.siteEntry_congr_of_ne (Or.inl hfreed) hmem hsite] at hw
    have hplain := (hinv.traced _ ((dirIndex_lt_768_iff addr).mpr haddr) _ (tableIndex_lt addr)
      w hw).1
    have hused := (hinv.inv.mapped_frame hsite (siteFrame_of_entry hw)).2
    rw [← hinv.inv.cow _ hsite w hw hplain]
    exact Function.update_of_ne (hother _ hused) _ _
  rcases hheld.remap hm₀ haddr hflags hone with ⟨m', hmapped, howes'⟩ | hfailed
  · rw [hmapped]
    exact howes'
  · rw [hfailed]
    exact hheld.giveBack hm₀ (Function.update_self ..)

/-- The mapping loop. -/
theorem mapPages (hm₀ : PoolReady m₀) (h : Loading m₀ m₁ own₁ pds pd s) (hpd : pd ∈ pds)
    {flags : Word} (hflags : MapFlags flags) {pages : List Nat}
    (hpages : ∀ a ∈ pages, a < kernelSpaceStart ∧ a % 4096 = 0) :
    Loading m₀ m₁ own₁ pds pd (elfMapPages pd flags pages s).1 := by
  induction pages generalizing s with
  | nil => exact h
  | cons addr rest ih =>
    rw [List.forall_mem_cons] at hpages
    have h' := h.mapPage hm₀ hpd hpages.1.1 hpages.1.2 hflags
    rw [elfMapPages]
    generalize elfMapPage pd flags s addr = res at h'
    obtain ⟨s', status⟩ := res
    cases status with
    | ok => exact ih h' hpages.2
    | failed => exact h'
    | halted => exact h'

/-- The area and the pages of a segment. -/
theorem prepare (hm₀ : PoolReady m₀) (h : Loading m₀ m₁ own₁ pds pd s) (hpd : pd ∈ pds)
    (ph : Elf32Phdr) : Loading m₀ m₁ own₁ pds pd (elfPrepare pd ph s).1 := by
  have hcases := vmaAdd_cases s.vmaHead ph.pVaddr ph.memEnd ph.vmaFlags s.kmallocs
  unfold elfPrepare
  generalize vmaAdd s.vmaHead ph.pVaddr ph.memEnd ph.vmaFlags s.kmallocs = res at hcases
  obtain ⟨vmas, ret, k⟩ := res
  dsimp only at hcases ⊢
  have h' := h.setVmas vmas k
  rcases hcases with ⟨-, hret⟩ | ⟨-, hend, -, hret⟩
  · rw [if_pos (by omega)]
    exact h'
  · rw [if_neg (by omega)]
    exact h'.mapPages hm₀ hpd (mapFlags_segment ph) fun a => ElfInv.pages_lt hend

/-- A chunk goes to a page of the directory. -/
theorem storeChunk (h : Loading m₀ m₁ own₁ pds pd s) (hpd : pd ∈ pds) {dest : Nat}
    (hdest : dest < kernelSpaceStart) (hmapped : MappedAt s.machine pd dest)
    (bytes : List (BitVec 8)) (hfit : dest % 4096 + bytes.length ≤ 4096) :
    Loading m₀ m₁ own₁ pds pd (s.storeChunk pd dest bytes) := by
  obtain ⟨own, hinv, howes⟩ := h
  obtain ⟨hpage, hinv'⟩ := hinv.storeChunk hpd hdest hmapped bytes hfit
  refine ⟨own, hinv', howes.congrMem (Machine.storeBytes_pmm _ _ _ _)
    (Machine.storeBytes_boot _ _ _ _) (Machine.storeBytes_mem_of_ne ?_ _ _) ?_⟩
  · intro heq
    rw [← heq, hinv.inv.dir pd hpd] at hpage
    cases hpage
  · intro i hi hpres
    apply Machine.storeBytes_mem_of_ne
    intro heq
    rw [← heq, hinv.inv.table pd hpd i hi hpres] at hpage
    cases hpage

/-- A copy loop that stays in the user half. -/
theorem copyLoop (file : VfsFile) (hpd : pd ∈ pds) {rounds dest offset count : Nat}
    (hfit : dest + count ≤ kernelSpaceStart) (h : Loading m₀ m₁ own₁ pds pd s) :
    Loading m₀ m₁ own₁ pds pd (elfCopyLoop file pd rounds dest offset count s).1 := by
  induction rounds generalizing dest offset count s with
  | zero => exact h
  | succ rounds ih =>
    obtain ⟨hchunk, hroom, hpos⟩ := ElfInv.elfChunk_le dest count
    have hbound := file.bounded offset (elfChunk dest count)
    have hround := elfCopyLoop_round file pd rounds dest offset count s
    generalize elfCopyLoop file pd (rounds + 1) dest offset count s = res at hround ⊢
    cases hround with
    | done | absent => exact h
    | short hcount hmapped => exact h.storeChunk hpd (by omega) hmapped _ (by omega)
    | next hcount hmapped =>
      have hdest : dest < kernelSpaceStart := by omega
      have hsum : wrap32 (dest + elfChunk dest count) = dest + elfChunk dest count := by
        unfold wrap32 kernelSpaceStart at *
        omega
      rw [hsum]
      exact ih (by omega) (h.storeChunk hpd hdest hmapped _ (by omega))

/-- One program header. -/
theorem segment (hm₀ : PoolReady m₀) (file : VfsFile) (hpd : pd ∈ pds) {ph : Elf32Phdr}
    (hfit : ph.pType = ptLoad → ph.Accepted → ph.pVaddr + ph.copySize ≤ kernelSpaceStart)
    (h : Loading m₀ m₁ own₁ pds pd s) :
    Loading m₀ m₁ own₁ pds pd (elfSegment file pd ph s).1 := by
  unfold elfSegment
  by_cases htype : ph.pType = ptLoad
  · rw [if_neg (not_not.mpr htype)]
    have h' := h.prepare hm₀ hpd ph
    have hacc := @elfPrepare_accepted pd ph s
    generalize elfPrepare pd ph s = res at h' hacc
    obtain ⟨t, status⟩ := res
    cases status with
    | ok => exact copyLoop file hpd (hfit htype (hacc rfl)) h'
    | failed => exact h'
    | halted => exact h'
  · rw [if_pos htype]
    exact h

/-- The loop over the program headers. -/
theorem segments (hm₀ : PoolReady m₀) (file : VfsFile) {header : Elf32Header} {l : List Nat}
    (hpd : pd ∈ pds) (hfit : ∀ ph ∈ loadHeaders file header l, ph.Accepted →
      ph.pVaddr + ph.copySize ≤ kernelSpaceStart) (h : Loading m₀ m₁ own₁ pds pd s) :
    Loading m₀ m₁ own₁ pds pd (elfSegments file pd header l s).1 := by
  induction l generalizing s with
  | nil => exact h
  | cons i rest ih =>
    rw [elfSegments]
    cases hphdr : elfPhdr file header i with
    | none => exact h
    | some ph =>
      simp only [loadHeaders, List.filterMap_cons, hphdr, List.filter_cons] at hfit
      have h' : Loading m₀ m₁ own₁ pds pd (elfSegment file pd ph s).1 :=
        segment hm₀ file hpd (fun htype => hfit ph (by simp [htype])) h
      dsimp only
      generalize elfSegment file pd ph s = res at h'
      obtain ⟨s', status⟩ := res
      cases status with
      | ok =>
        refine ih (fun ph' hph' => hfit ph' ?_) h'
        split_ifs
        · exact List.mem_cons_of_mem _ hph'
        · exact hph'
      | failed => exact h'
      | halted => exact h'

end Loading

end EnclaveOS
