import EnclaveOS.Memory.DirectMap
import EnclaveOS.Memory.PageRights
import EnclaveOS.Process.SyscallSpec

/-!
# SpaceSteps - what the system calls do to user halves

The entries that the page loops of `sys_munmap` and `sys_mprotect` change, the pages that
a load maps, and what a fork and the start of a task leave of the user halves that exist.
-/

namespace EnclaveOS

open PageWord RefCount

section KernelStacks

variable {m m' : Machine} {pds : Finset Nat} {own : Nat → Owner} {R : Nat → Nat → Prop} {pd slot : Nat}

/-- The entries of a kernel stack are in tables of the kernel half. -/
theorem SlotWrites.space (hwrites : SlotWrites slot m m') (hslot : slot < kernelStackSlots)
    (h : VmInv m pds own) (hk : KernelHalf m own R) (hpd : pd ∈ pds) : SpaceKept m m' pd := by
  apply h.space_of_mem hpd
  intro g hg
  funext j
  by_contra hne
  obtain ⟨q, hq, rfl, -⟩ := hwrites.mem g j hne
  obtain ⟨hlow, hhigh⟩ := stackVirt_index hslot hq
  have hreserved := (hk.table _ hlow (by omega) (hk.direct _ hlow hhigh)).1
  rcases hg with hg | ⟨i, hg⟩ | hg
  · rw [hg, h.dir pd hpd] at hreserved
    cases hreserved
  · rw [hreserved] at hg
    cases hg
  · rw [hreserved] at hg
    cases hg

theorem space_allocKernelStack (h : VmInv m pds own) (hk : KernelHalf m own R) (hpd : pd ∈ pds)
    (halloc : (vmmAllocKernelStack m).machine = some m') : SpaceKept m m' pd := by
  rcases vmmAllocKernelStack_writes hk.directTables halloc with rfl | ⟨slot, hnext, hwrites⟩
  · exact .refl _ pd
  · exact hwrites.space (nextSlot_lt hnext) h hk hpd

end KernelStacks

section Unmap

variable {m : Machine} {pds : Finset Nat} {own : Nat → Owner} {R : Nat → Nat → Prop} {pd : Nat}

/-- Nothing but tables of `pd` is written. -/
def TablesWritten (m : Machine) (pd : Nat) (m' : Machine) : Prop :=
  ∀ g, (∀ i < 768, isPresent (m.mem pd i) = true → g ≠ frameOf (m.mem pd i)) → m'.mem g = m.mem g

theorem TablesWritten.refl (m : Machine) (pd : Nat) : TablesWritten m pd m :=
  fun _ _ => rfl

theorem TablesWritten.trans {m' m'' : Machine} (h : TablesWritten m pd m')
    (h' : TablesWritten m' pd m'') (hdir : m'.mem pd = m.mem pd) : TablesWritten m pd m'' := by
  intro g hg
  rw [h' g (by rwa [hdir]), h g hg]

theorem TablesWritten.dir {m' : Machine} (hw : TablesWritten m pd m') (h : VmInv m pds own)
    (hpd : pd ∈ pds) : m'.mem pd = m.mem pd :=
  hw pd fun _ hi hpde => h.table_ne_dir hpd hi hpde hpd

/-- The user halves of the other directories stay. -/
theorem TablesWritten.space {m' : Machine} {other : Nat} (hw : TablesWritten m pd m')
    (h : VmInv m pds own) (hpd : pd ∈ pds) (hother : other ∈ pds) (hne : other ≠ pd) :
    SpaceKept m m' other := by
  apply h.space_of_mem hother
  intro g hg
  apply hw
  rintro i hi hpde rfl
  have htable := h.table pd hpd i hi hpde
  rcases hg with hg | ⟨j, hg⟩ | hg
  · rw [hg, h.dir other hother] at htable
    cases htable
  · rw [htable, Owner.table.injEq] at hg
    exact hne hg.1.symm
  · rw [htable] at hg
    cases hg

/-- Pages of `pd` were edited: `f` maps the old entry of such a page to the new one. -/
def PagesEdited (f : Option Word → Option Word) (m : Machine) (pd : Nat) (l : List Nat)
    (m' : Machine) : Prop :=
  TablesWritten m pd m' ∧ ∀ i < 768, ∀ j < 1024, siteEntry m' (pd, i, j) =
    if entryPage i j ∈ l then f (siteEntry m (pd, i, j)) else siteEntry m (pd, i, j)

namespace PagesEdited

variable {f : Option Word → Option Word} {m₁ m₂ : Machine} {l : List Nat} {x : Nat}

theorem nil (f : Option Word → Option Word) (m : Machine) (pd : Nat) : PagesEdited f m pd [] m :=
  ⟨.refl m pd, fun i _ j _ => by simp⟩

theorem cons (h : VmInv m pds own) (hpd : pd ∈ pds) (hx : x ∉ l)
    (hedited : PagesEdited f m pd [x] m₁) (hrest : PagesEdited f m₁ pd l m₂) :
    PagesEdited f m pd (x :: l) m₂ := by
  refine ⟨hedited.1.trans hrest.1 (hedited.1.dir h hpd), fun i hi j hj => ?_⟩
  rw [hrest.2 i hi j hj, hedited.2 i hi j hj]
  by_cases hpage : entryPage i j = x
  · subst hpage
    simp [hx]
  · simp [hpage]

theorem not_mapped (hmapped : isMapped m pd x = false) (hf : f none = none) :
    PagesEdited f m pd [x] m := by
  refine ⟨.refl m pd, fun i hi j hj => ?_⟩
  simp only [List.mem_singleton]
  by_cases hpage : entryPage i j = x
  · have hnone := siteEntry_of_not_mapped hmapped
    rw [← hpage, dirIndex_entryPage i hj, tableIndex_entryPage i hj] at hnone
    rw [if_pos hpage, hnone, hf]
  · rw [if_neg hpage]

/-- One write to the entry of a mapped page. -/
theorem setPte (h : VmInv m pds own) (hpd : pd ∈ pds) (hxa : x % 4096 = 0)
    (hx : x < kernelSpaceStart) (hmapped : isMapped m pd x = true) {w : Word}
    (hf : f (some (m.pteAt pd (dirIndex x) (tableIndex x))) = if isPresent w then some w else none)
    (hm₁ : m₁.mem = (m.setWord (frameOf (m.mem pd (dirIndex x))) (tableIndex x) w).mem) :
    PagesEdited f m pd [x] m₁ := by
  have hpde := (isMapped_iff.mp hmapped).1
  have hi := (dirIndex_lt_768_iff x).mpr hx
  have hsite := siteEntry_of_mapped hmapped
  constructor
  · intro g hg
    rw [hm₁]
    exact Machine.setWord_mem_of_ne (hg _ hi hpde) _ _
  · intro i hi' j hj
    have hentry := h.siteEntry_setPte hpd hi hpde (tableIndex x) w (mem_userSites.mpr ⟨hpd, hi', hj⟩)
    simp only [siteEntry, Machine.pteAt, ← hm₁] at hentry
    simp only [List.mem_singleton]
    refine Eq.trans hentry ?_
    by_cases hpage : entryPage i j = x
    · subst hpage
      rw [dirIndex_entryPage i hj, tableIndex_entryPage i hj] at hsite hf ⊢
      rw [if_pos rfl, Function.update_self, hsite, hf]
    · rw [if_neg hpage, Function.update_of_ne]
      rintro hsame
      obtain ⟨rfl, rfl⟩ := Prod.mk.inj (Prod.mk.inj hsame).2
      rw [entryPage_index, pageDown_eq_self hxa] at hpage
      exact hpage rfl

end PagesEdited

/-- One page of the loop. -/
theorem unmapPage_edited (h : VmInv m pds own) (hpd : pd ∈ pds) {x : Nat} (hxa : x % 4096 = 0)
    (hx : isMapped m pd x = true → x < kernelSpaceStart) :
    PagesEdited (fun _ => none) m pd [x] (vmmUnmapAndFreePageInPd m pd x) := by
  rw [vmmUnmapAndFreePageInPd_eq]
  cases hmapped : isMapped m pd x with
  | false =>
    rw [if_neg (by rw [← isMapped_iff, hmapped]; exact Bool.false_ne_true)]
    exact .not_mapped hmapped rfl
  | true =>
    rw [if_pos (isMapped_iff.mp hmapped)]
    exact .setPte h hpd hxa (hx hmapped) hmapped (by rw [isPresent_zero]; rfl) rfl

/-- After the loop of `sys_munmap` its pages are not mapped, and the others are as before. -/
theorem unmapPages_edited (h : VmInv m pds own) (hk : KernelHalf m own R) (hpd : pd ∈ pds)
    {l : List Nat} (hnodup : l.Nodup) (hl : ∀ y ∈ l, y % 4096 = 0 ∧ y < 4294967296)
    (hprivate : PrivatePages m pd l) :
    PagesEdited (fun _ => none) m pd l
      (l.foldl (fun m p => vmmUnmapAndFreePageInPd m pd p) m) := by
  induction l generalizing m own with
  | nil => exact .nil _ m pd
  | cons x rest ih =>
    rw [List.nodup_cons] at hnodup
    rw [List.forall_mem_cons] at hl
    obtain ⟨hprivate', own₁, hinv, hframe⟩ := unmapPage_inv h hk hpd hl.1.1 hnodup.1 hl.2 hprivate
    exact .cons h hpd hnodup.1
      (unmapPage_edited h hpd hl.1.1 fun hmapped => (hprivate x List.mem_cons_self hmapped).1)
      (ih hinv (hk.frame h.boot hframe) hnodup.2 hl.2 hprivate')

end Unmap

section Protect

variable {m : Machine} {pds : Finset Nat} {own : Nat → Owner} {pd : Nat} {flags : Word}

/-- One page of the loop. -/
theorem protectPage_edited (h : VmInv m pds own) (hpd : pd ∈ pds) {x : Nat} (hxa : x % 4096 = 0)
    (hx : x < kernelSpaceStart) (hflags : MapFlags flags) :
    PagesEdited (Option.map fun w => protectedEntry w flags) m pd [x]
      (vmmProtectPageInPd m pd x flags) := by
  rw [vmmProtectPageInPd_eq]
  cases hmapped : isMapped m pd x with
  | false =>
    rw [if_neg (by rw [← isMapped_iff, hmapped]; exact Bool.false_ne_true)]
    exact .not_mapped hmapped rfl
  | true =>
    rw [if_pos (isMapped_iff.mp hmapped)]
    exact .setPte h hpd hxa hx hmapped (by rw [if_pos (isPresent_protectedEntry _ hflags)]; rfl) rfl

/-- After the loop of `sys_mprotect` the mapped pages of its range have the new protection. -/
theorem protectPages_edited (h : VmInv m pds own) (hpd : pd ∈ pds) (hflags : MapFlags flags)
    {l : List Nat} (hnodup : l.Nodup) (hl : ∀ y ∈ l, y % 4096 = 0 ∧ y < kernelSpaceStart) :
    PagesEdited (Option.map fun w => protectedEntry w flags) m pd l
      (l.foldl (fun m p => vmmProtectPageInPd m pd p flags) m) := by
  induction l generalizing m with
  | nil => exact .nil _ m pd
  | cons x rest ih =>
    rw [List.nodup_cons] at hnodup
    rw [List.forall_mem_cons] at hl
    obtain ⟨hinv, -⟩ := h.vmmProtectPageInPd hpd hl.1.2 hflags
    exact .cons h hpd hnodup.1 (protectPage_edited h hpd hl.1.1 hl.1.2 hflags)
      (ih hinv hnodup.2 hl.2)

end Protect

/-- The pages of every accepted segment get entries that the segment's area allows. -/
def SegmentsAllowed (R : Word → Word → Prop) (file : VfsFile) : Prop :=
  ∀ header, elfHeader file = some header →
    ∀ h ∈ loadHeaders file header (List.range header.ePhnum), h.Accepted → h.pages ≠ [] →
      ∀ n < 1048576, R h.vmaFlags (frameAddr n ||| h.pteFlags)

/-- Between two steps of a load that began in `m₀`: the pages of the new directory lie in the
areas of the load, and the other user halves stay. -/
structure LoadPages (R : Word → Word → Prop) (m₀ : Machine) (pds : Finset Nat) (pd : Nat)
    (s : ElfState) : Prop where
  others : ∀ other ∈ pds, other ≠ pd → SpaceKept m₀ s.machine other
  allowed : PagesAllowed R s.machine pd s.vmaHead

namespace LoadPages

variable {R : Word → Word → Prop} {m₀ : Machine} {own₀ own : Nat → Owner} {pds : Finset Nat}
  {pd : Nat} {s : ElfState}

/-- One page of an area of the load. -/
theorem mapPage (hl : LoadPages R m₀ pds pd s) (h : ElfInv m₀ own₀ pds pd s own) (hpd : pd ∈ pds)
    {flags : Word} {addr : Nat} (haddr : addr < kernelSpaceStart) (haligned : addr % 4096 = 0)
    (hflags : MapFlags flags)
    (harea : ∀ n < 1048576, Allowed R s.vmaHead addr (frameAddr n ||| flags)) :
    LoadPages R m₀ pds pd (elfMapPage pd flags s addr).1 ∧
      (elfMapPage pd flags s addr).1.vmaHead = s.vmaHead := by
  have hi := (dirIndex_lt_768_iff addr).mpr haddr
  rcases h.inv.elfMapPage hpd haddr hflags fun w hw =>
      (h.traced _ hi _ (tableIndex_lt addr) w hw).1 with
    ⟨m', own', l, hres, -, -, hentries, hdata⟩ | ⟨m', own', n, hres, hmax, hwritten, -⟩
  · rw [hres]
    refine ⟨⟨fun other hother hne => (hl.others other hother hne).trans ?_, ?_⟩, rfl⟩
    · exact .of_entries hother (fun x hx _ => hentries x hx)
        fun x hx _ f hf => hdata f (h.inv.page_of_frame hx hf)
    · intro i hi j hj w hw
      rw [hentries _ (mem_userSites.mpr ⟨hpd, hi, hj⟩)] at hw
      exact hl.allowed i hi j hj w hw
  · rw [hres]
    refine ⟨⟨fun other hother hne => (hl.others other hother hne).trans ?_, ?_⟩, rfl⟩
    · refine .of_entries hother ?_
        fun x hx _ f hf => hwritten.data f (Or.inr (h.inv.page_of_frame hx hf))
      rintro x hx rfl
      rw [hwritten.entries x hx, Function.update_of_ne]
      rintro rfl
      exact hne rfl
    · intro i hi j hj w hw
      rw [hwritten.entries _ (mem_userSites.mpr ⟨hpd, hi, hj⟩)] at hw
      by_cases hsame : (pd, i, j) = (pd, dirIndex addr, tableIndex addr)
      · obtain ⟨rfl, rfl⟩ := Prod.mk.inj (Prod.mk.inj hsame).2
        rw [Function.update_self, if_pos (hflags.mapped n)] at hw
        cases hw
        rw [entryPage_index, pageDown_eq_self haligned]
        exact harea n hmax
      · rw [Function.update_of_ne hsame] at hw
        exact hl.allowed i hi j hj w hw

/-- The mapping loop. -/
theorem mapPages (hl : LoadPages R m₀ pds pd s) (h : ElfInv m₀ own₀ pds pd s own) (hpd : pd ∈ pds)
    {flags : Word} (hflags : MapFlags flags) {pages : List Nat}
    (hpages : ∀ a ∈ pages, a < kernelSpaceStart ∧ a % 4096 = 0)
    (harea : ∀ a ∈ pages, ∀ n < 1048576, Allowed R s.vmaHead a (frameAddr n ||| flags)) :
    LoadPages R m₀ pds pd (elfMapPages pd flags pages s).1 := by
  induction pages generalizing s own with
  | nil => exact hl
  | cons addr rest ih =>
    rw [List.forall_mem_cons] at hpages harea
    obtain ⟨⟨haddr, haligned⟩, hpages⟩ := hpages
    obtain ⟨hl₁, hvmas⟩ := hl.mapPage h hpd haddr haligned hflags harea.1
    obtain ⟨-, own₁, h₁⟩ := h.mapPage hpd haddr haligned hflags
    rw [elfMapPages]
    generalize elfMapPage pd flags s addr = res at hl₁ hvmas h₁
    obtain ⟨s', status⟩ := res
    dsimp only at hl₁ hvmas h₁
    cases status
    · exact ih hl₁ h₁ hpages (by rw [hvmas]; exact harea.2)
    · exact hl₁
    · exact hl₁

/-- The pages of a segment lie in its area. -/
theorem segment_page {h : Elf32Phdr} (hend : h.memEnd ≤ kernelSpaceStart) {a : Nat}
    (ha : a ∈ h.pages) : pageDown h.pVaddr ≤ a ∧ a < pageUp h.memEnd := by
  obtain ⟨n, hn, rfl⟩ := List.mem_map.mp ha
  have hn' := List.mem_range.mp hn
  have hmod := pageDown_mod h.pVaddr
  have hup : pageUp h.memEnd ≤ kernelSpaceStart :=
    pageUp_le hend (by decide) kernelSpaceStart_le_lastPage
  have hmod' := pageUp_mod h.memEnd
  omega

/-- The area and the pages of a segment. -/
theorem prepare (hl : LoadPages R m₀ pds pd s) (h : ElfInv m₀ own₀ pds pd s own) (hpd : pd ∈ pds)
    {ph : Elf32Phdr} (hright : ph.Accepted → ph.pages ≠ [] →
      ∀ n < 1048576, R ph.vmaFlags (frameAddr n ||| ph.pteFlags)) :
    LoadPages R m₀ pds pd (elfPrepare pd ph s).1 := by
  have hcases := vmaAdd_cases s.vmaHead ph.pVaddr ph.memEnd ph.vmaFlags s.kmallocs
  have hcovers := covers_vmaAdd s.vmaHead ph.pVaddr ph.memEnd ph.vmaFlags s.kmallocs
  have hholds := @vmaAdd_holds s.vmaHead ph.pVaddr ph.memEnd ph.vmaFlags s.kmallocs
  unfold elfPrepare
  generalize vmaAdd s.vmaHead ph.pVaddr ph.memEnd ph.vmaFlags s.kmallocs = res at hcases hcovers hholds
  obtain ⟨vmas, ret, k⟩ := res
  dsimp only at hcases hcovers hholds ⊢
  have hl' : LoadPages R m₀ pds pd { s with vmaHead := vmas, kmallocs := k } :=
    ⟨hl.others, hl.allowed.covers hcovers⟩
  rcases hcases with ⟨-, hret⟩ | ⟨hvaddr, hend, -, hret⟩
  · rw [if_pos (by omega)]
    exact hl'
  · rw [if_neg (by omega)]
    refine hl'.mapPages (h.setVmas vmas k) hpd (mapFlags_segment ph)
      (fun a => ElfInv.pages_lt hend) ?_
    intro a ha n hn
    obtain ⟨hlow, hhigh⟩ := segment_page hend ha
    obtain ⟨v, hv, hvholds, hflags⟩ := hholds (by omega) hlow hhigh
    refine ⟨v, hv, hvholds, ?_⟩
    rw [hflags]
    exact hright ⟨hvaddr, hend⟩ (List.ne_nil_of_mem ha) n hn

/-- A chunk goes to a page that no other directory maps. -/
theorem storeChunk (hl : LoadPages R m₀ pds pd s) (h : ElfInv m₀ own₀ pds pd s own) (hpd : pd ∈ pds)
    {dest : Nat} (hdest : dest < kernelSpaceStart) (hmapped : MappedAt s.machine pd dest)
    (bytes : List (BitVec 8)) : LoadPages R m₀ pds pd (s.storeChunk pd dest bytes) := by
  unfold ElfState.storeChunk
  constructor
  · refine fun other hother hne => (hl.others other hother hne).trans
      (.of_entries hother (fun x hx _ => (h.storeChunk_sites hpd hdest hmapped _ _ hx).1) ?_)
    rintro x hx rfl f hf
    exact (h.storeChunk_sites hpd hdest hmapped _ _ hx).2 (fun heq => hne (congrArg Prod.fst heq))
      f hf
  · intro i hi j hj w hw
    rw [(h.storeChunk_sites hpd hdest hmapped _ _ (mem_userSites.mpr ⟨hpd, hi, hj⟩)).1] at hw
    exact hl.allowed i hi j hj w hw

/-- A copy loop that stays in the user half. -/
theorem copyLoop (file : VfsFile) (hpd : pd ∈ pds) {rounds dest offset count : Nat}
    (hfit : dest + count ≤ kernelSpaceStart) (h : ElfInv m₀ own₀ pds pd s own)
    (hl : LoadPages R m₀ pds pd s) :
    ElfInv m₀ own₀ pds pd (elfCopyLoop file pd rounds dest offset count s).1 own ∧
      LoadPages R m₀ pds pd (elfCopyLoop file pd rounds dest offset count s).1 := by
  induction rounds generalizing dest offset count s with
  | zero => exact ⟨h, hl⟩
  | succ rounds ih =>
    obtain ⟨hchunk, hroom, hpos⟩ := ElfInv.elfChunk_le dest count
    have hbound := file.bounded offset (elfChunk dest count)
    have hstored := fun (hlt : dest < kernelSpaceStart) hmapped => h.storeChunk hpd hlt hmapped
      (file.read offset (elfChunk dest count)).2 (by omega)
    have hround := elfCopyLoop_round file pd rounds dest offset count s
    generalize elfCopyLoop file pd (rounds + 1) dest offset count s = res at hround ⊢
    cases hround with
    | done | absent => exact ⟨h, hl⟩
    | short hcount hmapped =>
      have hdest : dest < kernelSpaceStart := by omega
      exact ⟨(hstored hdest hmapped).2, hl.storeChunk h hpd hdest hmapped _⟩
    | next hcount hmapped =>
      have hdest : dest < kernelSpaceStart := by omega
      have hsum : wrap32 (dest + elfChunk dest count) = dest + elfChunk dest count := by
        unfold wrap32 kernelSpaceStart at *
        omega
      rw [hsum]
      exact ih (by omega) (hstored hdest hmapped).2 (hl.storeChunk h hpd hdest hmapped _)

/-- One program header. -/
theorem segment (file : VfsFile) (hpd : pd ∈ pds) {ph : Elf32Phdr}
    (hfit : ph.pType = ptLoad → ph.Accepted → ph.pVaddr + ph.copySize ≤ kernelSpaceStart)
    (hright : ph.pType = ptLoad → ph.Accepted → ph.pages ≠ [] →
      ∀ n < 1048576, R ph.vmaFlags (frameAddr n ||| ph.pteFlags))
    (h : ElfInv m₀ own₀ pds pd s own) (hl : LoadPages R m₀ pds pd s) :
    ∃ own', ElfInv m₀ own₀ pds pd (elfSegment file pd ph s).1 own' ∧
      LoadPages R m₀ pds pd (elfSegment file pd ph s).1 := by
  unfold elfSegment
  by_cases htype : ph.pType = ptLoad
  swap
  · rw [if_pos htype]
    exact ⟨own, h, hl⟩
  rw [if_neg (by simpa using htype)]
  obtain ⟨-, -, own₁, h₁⟩ := h.prepare hpd ph
  have hl₁ := hl.prepare h hpd (hright htype)
  have hacc := @elfPrepare_accepted pd ph s
  generalize elfPrepare pd ph s = res at h₁ hl₁ hacc
  obtain ⟨t, status⟩ := res
  cases status
  · obtain ⟨h₂, hl₂⟩ := copyLoop file hpd (hfit htype (hacc rfl)) h₁ hl₁
    exact ⟨own₁, h₂, hl₂⟩
  · exact ⟨own₁, h₁, hl₁⟩
  · exact ⟨own₁, h₁, hl₁⟩

/-- The loop over the program headers. -/
theorem segments (file : VfsFile) {header : Elf32Header} {l : List Nat} (hpd : pd ∈ pds)
    (hfit : ∀ ph ∈ loadHeaders file header l, ph.Accepted →
      ph.pVaddr + ph.copySize ≤ kernelSpaceStart)
    (hright : ∀ ph ∈ loadHeaders file header l, ph.Accepted → ph.pages ≠ [] →
      ∀ n < 1048576, R ph.vmaFlags (frameAddr n ||| ph.pteFlags))
    (h : ElfInv m₀ own₀ pds pd s own) (hl : LoadPages R m₀ pds pd s) :
    ∃ own', ElfInv m₀ own₀ pds pd (elfSegments file pd header l s).1 own' ∧
      LoadPages R m₀ pds pd (elfSegments file pd header l s).1 := by
  induction l generalizing s own with
  | nil => exact ⟨own, h, hl⟩
  | cons i rest ih =>
    rw [elfSegments]
    cases hphdr : elfPhdr file header i with
    | none => exact ⟨own, h, hl⟩
    | some ph =>
      have hhead : ph.pType = ptLoad → ph ∈ loadHeaders file header (i :: rest) := by
        intro htype
        simp [loadHeaders, hphdr, htype]
      have htail : ∀ ph' ∈ loadHeaders file header rest,
          ph' ∈ loadHeaders file header (i :: rest) := by
        intro ph' hph'
        obtain ⟨hmem, htype⟩ := List.mem_filter.mp hph'
        refine List.mem_filter.mpr ⟨?_, htype⟩
        rw [List.filterMap_cons, hphdr]
        exact List.mem_cons_of_mem _ hmem
      obtain ⟨own₁, h₁, hl₁⟩ := segment file hpd (fun htype => hfit ph (hhead htype))
        (fun htype => hright ph (hhead htype)) h hl
      dsimp only
      generalize elfSegment file pd ph s = res at h₁ hl₁
      obtain ⟨s', status⟩ := res
      cases status
      · exact ih (fun ph' hph' => hfit ph' (htail ph' hph'))
          (fun ph' hph' => hright ph' (htail ph' hph')) h₁ hl₁
      · exact ⟨own₁, h₁, hl₁⟩
      · exact ⟨own₁, h₁, hl₁⟩

end LoadPages

/-- A load into an empty user half: its pages lie in its areas, and the other user halves stay. -/
theorem elfLoad_pages {R : Word → Word → Prop} {m : Machine} {pds : Finset Nat} {own : Nat → Owner}
    {pd : Nat} (h : VmInv m pds own) (hpd : pd ∈ pds) (hempty : ∀ i < 768, m.mem pd i = 0#32)
    {file : VfsFile} (hfit : SegmentsFit file) (hright : SegmentsAllowed R file) (k : Kmalloc) :
    LoadPages R m pds pd (elfLoad file pd m k).1 := by
  have hstart : LoadPages R m pds pd (.start m k) := by
    refine ⟨fun other _ _ => .refl m other, ?_⟩
    intro i hi j _ w hw
    obtain ⟨hpde, -, -⟩ := siteEntry_eq_some.mp hw
    change isPresent (m.mem pd i) = true at hpde
    rw [hempty i hi, isPresent_zero] at hpde
    cases hpde
  unfold elfLoad
  cases hheader : elfHeader file with
  | none => exact hstart
  | some header =>
    obtain ⟨own', -, hpages⟩ := LoadPages.segments file hpd (hfit header hheader)
      (hright header hheader) (ElfInv.start h hempty k) hstart
    dsimp only
    generalize elfSegments file pd header (List.range header.ePhnum) (.start m k) = res at hpages
    obtain ⟨s, status⟩ := res
    cases status <;> exact hpages

section Processes

variable {R : Word → Word → Prop} {m m' : Machine} {pds : Finset Nat} {own : Nat → Owner}
  {pd newPd : Nat} {vmas vmas' : List Vma} {k k' : Kmalloc}

theorem covers_addStackAndHeap (vmas : List Vma) (k : Kmalloc) :
    AreasCover vmas (addStackAndHeap vmas k).1 := by
  have hstack := covers_vmaAdd vmas (userStackVirtTop - userStackSize) userStackVirtTop
    (vmaRead ||| vmaWrite) k
  unfold addStackAndHeap
  generalize vmaAdd vmas (userStackVirtTop - userStackSize) userStackVirtTop
    (vmaRead ||| vmaWrite) k = res at hstack
  obtain ⟨vmas', ret, k'⟩ := res
  dsimp only at hstack ⊢
  split_ifs
  · exact hstack
  · exact hstack.trans (covers_vmaAdd _ _ _ _ _)

/-- `sys_exec`: the old image stays, or the pages of the new one lie in its areas; the other
user halves stay. -/
theorem sysExecMemory_spaces {S : Nat → Nat → Prop} (hR : PageRights R) (h : VmInv m pds own)
    (hk : KernelHalf m own S) (hpd : pd ∈ pds) {file : Except Int VfsFile}
    (hfit : ∀ f, file = .ok f → SegmentsFit f) (hright : ∀ f, file = .ok f → SegmentsAllowed R f)
    {ret : Int} (hexec : sysExecMemory m pd vmas file k = some (m', newPd, vmas', ret, k')) :
    (∀ other ∈ pds, other ≠ pd → SpaceKept m m' other) ∧
      (newPd = pd ∧ vmas' = vmas ∧ SpaceKept m m' pd ∨
        newPd ∉ pds ∧ PagesAllowed R m' newPd vmas') := by
  cases file with
  | error e =>
    cases hexec
    exact ⟨fun other _ _ => .refl m other, Or.inl ⟨rfl, rfl, .refl m pd⟩⟩
  | ok f =>
    unfold sysExecMemory at hexec
    dsimp only at hexec
    rcases h.vmmCreateAddressSpace with hnone | ⟨m₁, n, own₁, hsome, hn, hinv, hframe, hnew⟩
    · rw [hnone] at hexec
      cases hexec
      exact ⟨fun other _ _ => .refl m other, Or.inl ⟨rfl, rfl, .refl m pd⟩⟩
    · rw [hsome] at hexec
      have hin : n ∈ insert n pds := Finset.mem_insert_self n pds
      have hmem : ∀ other ∈ pds, other ∈ insert n pds ∧ other ≠ n :=
        fun other hother => ⟨Finset.mem_insert_of_mem hother, fun heq => hn (heq ▸ hother)⟩
      obtain ⟨hrun, own₂, hload⟩ :=
        elfLoad_inv hinv (hk.frame h.boot hframe) hin hnew.empty (hfit f rfl) k
      have hpages := elfLoad_pages hinv hin hnew.empty (hfit f rfl) (hright f rfl) k
      rcases hres : elfLoad f n m₁ k with ⟨t, status, entry⟩
      rw [hres] at hrun hload hpages
      simp only [hres] at hexec
      rw [if_neg hrun] at hexec
      have hkept : ∀ other ∈ pds, SpaceKept m t.machine other := fun other hother =>
        (VmInv.NewDir.space h hnew hother).trans
          (hpages.others other (hmem other hother).1 (hmem other hother).2)
      by_cases hentry : entry = 0
      · rw [if_pos hentry] at hexec
        cases hexec
        have hdestroyed : ∀ other ∈ pds,
            SpaceKept m (vmmDestroyAddressSpace t.machine n) other := fun other hother =>
          (hkept other hother).trans (hload.inv.space_destroy hin (hmem other hother).1
            (hmem other hother).2)
        exact ⟨fun other hother _ => hdestroyed other hother,
          Or.inl ⟨rfl, rfl, hdestroyed pd hpd⟩⟩
      · rw [if_neg hentry, if_pos (hmem pd hpd).2] at hexec
        have hareas := covers_addStackAndHeap t.vmaHead t.kmallocs
        have hres : m' = vmmDestroyAddressSpace t.machine pd ∧ newPd = n ∧
            vmas' = (addStackAndHeap t.vmaHead t.kmallocs).1 := by
          split_ifs at hexec
          · cases hexec
            exact ⟨rfl, rfl, rfl⟩
          · cases hexec
            exact ⟨rfl, rfl, rfl⟩
        obtain ⟨rfl, rfl, rfl⟩ := hres
        refine ⟨fun other hother hne => (hkept other hother).trans
          (hload.inv.space_destroy (hmem pd hpd).1 (hmem other hother).1 hne), Or.inr ⟨hn, ?_⟩⟩
        exact (hpages.allowed.kept hR (hload.inv.space_destroy (hmem pd hpd).1 hin
          (hmem pd hpd).2.symm).entries).covers hareas

/-- The kernel stack and the PCB of a new task. -/
theorem taskCreate_spaces (h : VmInv m pds own) (hk : KernelHalf m own (stacksInUse m))
    {pcb stackTop : Nat} (hcreate : taskCreate m = some (m', some (pcb, stackTop))) (hpd : pd ∈ pds) :
    SpaceKept m m' pd := by
  unfold taskCreate at hcreate
  rcases halloc : vmmAllocKernelStack m with ⟨m₁, top⟩ | m₁ | _
  · rw [halloc] at hcreate
    have hstack : SpaceKept m m₁ pd := space_allocKernelStack h hk hpd (by rw [halloc]; rfl)
    rcases hpage : m₁.allocPage with ⟨m₂, pcbPhys⟩
    have hmem : m₂.mem = m₁.mem := by
      have hsame := m₁.allocPage_mem
      rwa [hpage] at hsame
    simp only [hpage] at hcreate
    split_ifs at hcreate with hnone
    · cases hcreate
    · cases hcreate
      exact hstack.trans (.of_mem_eq hmem pd)
  · rw [halloc] at hcreate
    cases hcreate
  · rw [halloc] at hcreate
    cases hcreate

/-- The first process: its pages lie in its areas, and the user halves that exist stay. -/
theorem startInit_spaces (hR : PageRights R) (h : VmInv m pds own)
    (hk : KernelHalf m own (stacksInUse m)) {file : VfsFile} (hfit : SegmentsFit file)
    (hright : SegmentsAllowed R file) {pcb : Nat} {task : Process}
    (hinit : startInit m file k = some (m', pcb, task)) :
    (∀ other ∈ pds, SpaceKept m m' other) ∧
      ∃ dir, task.pdirVirt = some dir ∧ dir ∉ pds ∧ PagesAllowed R m' dir task.vmaHead := by
  unfold startInit at hinit
  rcases h.vmmCreateAddressSpace with hnone | ⟨m₁, n, own₁, hsome, hn, hinv, hframe, hnew⟩
  · rw [hnone] at hinit
    cases hinit
  · rw [hsome] at hinit
    have hin : n ∈ insert n pds := Finset.mem_insert_self n pds
    obtain ⟨-, own₂, hload⟩ := elfLoad_inv hinv (hk.frame h.boot hframe) hin hnew.empty hfit k
    have hpages := elfLoad_pages hinv hin hnew.empty hfit hright k
    rcases hres : elfLoad file n m₁ k with ⟨t, status, entry⟩
    rw [hres] at hload hpages
    simp only [hres] at hinit
    have hkernel : KernelFrame m own t.machine own₂ := hframe.trans hload.kernel
    have hhalf := hk.frame h.boot hkernel
    rw [← stacksInUse_congr hkernel.kstack] at hhalf
    have hareas := covers_addStackAndHeap t.vmaHead t.kmallocs
    split_ifs at hinit with hfail hret
    rcases hcreate : taskCreate t.machine with _ | ⟨m₂, _ | ⟨pcb', top⟩⟩
    · rw [hcreate] at hinit
      cases hinit
    · rw [hcreate] at hinit
      cases hinit
    · rw [hcreate] at hinit
      cases hinit
      have hspace : ∀ d ∈ insert n pds, SpaceKept t.machine m' d :=
        fun d hd => taskCreate_spaces hload.inv hhalf hcreate hd
      refine ⟨fun other hother => ?_, n, rfl, hn, ?_⟩
      · have hne : other ≠ n := fun heq => hn (heq ▸ hother)
        have hmem : other ∈ insert n pds := Finset.mem_insert_of_mem hother
        exact ((VmInv.NewDir.space h hnew hother).trans (hpages.others other hmem hne)).trans
          (hspace other hmem)
      · exact (hpages.allowed.kept hR (hspace n hin).entries).covers hareas

/-- Giving a kernel stack and a PCB back. -/
theorem space_freeTask (h : VmInv m pds own) (hk : KernelHalf m own (stacksInUse m)) {slot : Nat}
    (hslot : slot < kernelStackSlots) (pcb : Word) (hpd : pd ∈ pds) :
    SpaceKept m ((vmmFreeKernelStack m (kernelStackTop slot)).freePage pcb) pd :=
  ((vmmFreeKernelStack_writes hk.directTables hslot).space hslot h hk hpd).trans
    (.of_mem_eq (Machine.freePage_mem _ _) pd)

/-- `task_fork`: the user halves that exist stay, and the pages of a child lie in its areas if
those of the parent do. -/
theorem taskForkMemory_spaces (hR : PageRights R) (h : VmInv m pds own)
    (hk : KernelHalf m own (stacksInUse m)) (hpd : pd ∈ pds) (hcard : pds.card < 0xFFFF)
    {child : Option (Nat × Process)} (hfork : taskForkMemory m pd vmas k = some (m', child)) :
    (∀ other ∈ pds, SpaceKept m m' other) ∧
      ∀ pcb task, child = some (pcb, task) → ∃ dir, task.pdirVirt = some dir ∧ dir ∉ pds ∧
        (PagesAllowed R m pd vmas → PagesAllowed R m' dir task.vmaHead) := by
  unfold taskForkMemory at hfork
  rcases vmmAllocKernelStack_spec h hk with
    ⟨m₁, own₁, slot, halloc, hslot, -, -, hinv, hhalf, -⟩ | ⟨m₁, own₁, hfail, -⟩
  · have hstack : ∀ other ∈ pds, SpaceKept m m₁ other :=
      fun other hother => space_allocKernelStack h hk hother (by rw [halloc]; rfl)
    rw [halloc] at hfork
    rcases hinv.allocPcb hhalf with hnone | ⟨f, -, -, hne, hpage, hinv₂, hhalf₂, -⟩
    · simp only [hnone, if_pos] at hfork
      cases hfork
      refine ⟨fun other hother => (hstack other hother).trans ?_, by rintro pcb task ⟨⟩⟩
      exact (vmmFreeKernelStack_writes hhalf.directTables hslot).space hslot hinv hhalf hother
    · simp only [hpage, if_neg hne] at hfork
      have hpcb : ∀ other ∈ pds, SpaceKept m (m₁.withPmm (m₁.pmm.take f)) other :=
        fun other hother => (hstack other hother).trans
          (.of_mem_eq (Machine.withPmm_mem m₁ (m₁.pmm.take f)) other)
      generalize hm₂ : m₁.withPmm (m₁.pmm.take f) = m₂ at hfork hinv₂ hhalf₂ hpcb
      have hstacks : stacksInUse m₂ = stacksInUse m₁ := by
        rw [← hm₂]
        exact stacksInUse_congr rfl
      rw [← hstacks] at hhalf₂
      -- what later steps on the user half leave of the kernel half
      have hlater : ∀ {m₃ : Machine} {own₃ : Nat → Owner},
          KernelFrame m₂ (Function.update own₁ f (.kernel .pcb)) m₃ own₃ →
            KernelHalf m₃ own₃ (stacksInUse m₃) := by
        intro m₃ own₃ hframe
        rw [stacksInUse_congr hframe.kstack]
        exact hhalf₂.frame hinv₂.boot hframe
      rcases hinv₂.vmmCloneAddressSpace_kept hpd
          fun i hi j hj g hsite => refcount_lt hinv₂ hcard hpd hi hj hsite with
        ⟨m₃, own₃, hclone, hinv₃, hframe, hkept⟩ |
        ⟨m₃, n, own₃, hclone, hn, hinv₃, hframe, hkept, hentries⟩
      · simp only [hclone] at hfork
        cases hfork
        refine ⟨fun other hother => ?_, by rintro pcb task ⟨⟩⟩
        exact ((hpcb other hother).trans (hkept other hother)).trans
          (space_freeTask hinv₃ (hlater hframe) hslot _ hother)
      · simp only [hclone] at hfork
        have hin : n ∈ insert n pds := Finset.mem_insert_self n pds
        split_ifs at hfork with hret
        · cases hfork
          refine ⟨fun other hother => ?_, by rintro pcb task ⟨⟩⟩
          obtain ⟨own₄, hinv₄, hframe₄⟩ := hinv₃.vmmDestroyAddressSpace hin
          rw [Finset.erase_insert hn] at hinv₄
          have hdestroyed := hinv₃.space_destroy hin (Finset.mem_insert_of_mem hother)
            fun heq => hn (heq ▸ hother)
          exact (((hpcb other hother).trans (hkept other hother)).trans hdestroyed).trans
            (space_freeTask hinv₄ (hlater (hframe.trans hframe₄)) hslot _ hother)
        · cases hfork
          refine ⟨fun other hother => (hpcb other hother).trans (hkept other hother), ?_⟩
          rintro pcb task ⟨⟩
          refine ⟨n, rfl, hn, fun hallowed => ?_⟩
          exact ((hallowed.kept hR (hpcb pd hpd).entries).cloned hR hentries).covers
            (covers_vmaClone hret)
  · have hstack : ∀ other ∈ pds, SpaceKept m m₁ other :=
      fun other hother => space_allocKernelStack h hk hother (by rw [hfail]; rfl)
    rw [hfail] at hfork
    cases hfork
    exact ⟨hstack, by rintro pcb task ⟨⟩⟩

end Processes

end EnclaveOS
