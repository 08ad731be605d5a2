import EnclaveOS.Memory.FaultSpec
import EnclaveOS.Process.Elf

/-!
# ElfSpec - what a load writes

A load into a fresh directory stores into frames it allocated and mapped itself,
as long as no copy loop runs past the end of user space.  The copy loop is the
only place where an address is followed without a bound: a segment whose end
wraps modulo `2 ^ 32` passes the area check and skips the mapping loop, and
its file bytes go wherever the directory leads.
-/

namespace EnclaveOS

open PageWord RefCount

namespace Machine

variable (m : Machine)

@[simp]
theorem storeBytes_pmm (frame offset : Nat) (bytes : List (BitVec 8)) :
    (m.storeBytes frame offset bytes).pmm = m.pmm := by
  induction bytes generalizing m offset with
  | nil => rfl
  | cons b rest ih => rw [storeBytes, ih, setWord_pmm]

@[simp]
theorem storeBytes_boot (frame offset : Nat) (bytes : List (BitVec 8)) :
    (m.storeBytes frame offset bytes).bootPageDirectory = m.bootPageDirectory := by
  induction bytes generalizing m offset with
  | nil => rfl
  | cons b rest ih => rw [storeBytes, ih, setWord_boot]

@[simp]
theorem storeBytes_kstack (frame offset : Nat) (bytes : List (BitVec 8)) :
    (m.storeBytes frame offset bytes).kstackBitmap = m.kstackBitmap := by
  induction bytes generalizing m offset with
  | nil => rfl
  | cons b rest ih =>
    rw [storeBytes, ih]
    rfl

variable {m}

theorem storeBytes_mem_of_ne {frame g : Nat} (h : g ≠ frame) (offset : Nat)
    (bytes : List (BitVec 8)) : (m.storeBytes frame offset bytes).mem g = m.mem g := by
  induction bytes generalizing m offset with
  | nil => rfl
  | cons b rest ih => rw [storeBytes, ih, setWord_mem_of_ne h]

end Machine

/-- The pages of the load lie in user space and in frames it allocated, and every
byte it copies goes to such a page. -/
structure Confined (t : ElfTrace) : Prop where
  mapped : ∀ x ∈ t.mapped, x.1 < kernelSpaceStart ∧ x.2 ∈ t.allocated
  stored : ∀ st ∈ t.stored, 0 < st.count → st.addr < kernelSpaceStart ∧
    st.addr % 4096 + st.count ≤ 4096 ∧ (pageDown st.addr, st.frame) ∈ t.mapped

/-- A byte was stored at a kernel address. -/
def Escaped (t : ElfTrace) : Prop :=
  ∃ st ∈ t.stored, 0 < st.count ∧ kernelSpaceStart ≤ st.addr

theorem Escaped.not_confined {t : ElfTrace} (h : Escaped t) : ¬ Confined t := by
  rintro hconfined
  obtain ⟨st, hst, hcount, haddr⟩ := h
  have := (hconfined.stored st hst hcount).1
  omega

/-- Both levels of the directory are present at an address. -/
def MappedAt (m : Machine) (pd a : Nat) : Prop :=
  isPresent (m.mem pd (dirIndex a)) = true ∧
    isPresent (m.pteAt pd (dirIndex a) (tableIndex a)) = true

/-- A chunk goes to the frame that is mapped at its address. -/
def ElfState.storeChunk (s : ElfState) (pd dest : Nat) (bytes : List (BitVec 8)) : ElfState :=
  { s with
    machine := s.machine.storeBytes
      (frameOf (s.machine.pteAt pd (dirIndex dest) (tableIndex dest))) (dest % 4096) bytes
    trace := { s.trace with
      stored := ⟨dest, frameOf (s.machine.pteAt pd (dirIndex dest) (tableIndex dest)),
        bytes.length⟩ :: s.trace.stored } }

/-- How a round of the copy loop ends. -/
inductive CopyRound (file : VfsFile) (pd rounds dest offset count : Nat) (s : ElfState) :
    ElfState × ElfStatus → Prop
  | done (hzero : count = 0) : CopyRound file pd rounds dest offset count s (s, .ok)
  | absent (hmapped : ¬MappedAt s.machine pd dest) :
    CopyRound file pd rounds dest offset count s (s, .failed)
  | short (hcount : 0 < count) (hmapped : MappedAt s.machine pd dest)
      (hread : (file.read offset (elfChunk dest count)).1 ≠ elfChunk dest count) :
    CopyRound file pd rounds dest offset count s
      (s.storeChunk pd dest (file.read offset (elfChunk dest count)).2, .failed)
  | next (hcount : 0 < count) (hmapped : MappedAt s.machine pd dest)
      (hread : (file.read offset (elfChunk dest count)).1 = elfChunk dest count) :
    CopyRound file pd rounds dest offset count s (elfCopyLoop file pd rounds
      (wrap32 (dest + elfChunk dest count)) (wrap32 (offset + elfChunk dest count))
      (count - elfChunk dest count)
      (s.storeChunk pd dest (file.read offset (elfChunk dest count)).2))

theorem elfCopyLoop_round (file : VfsFile) (pd rounds dest offset count : Nat) (s : ElfState) :
    CopyRound file pd rounds dest offset count s
      (elfCopyLoop file pd (rounds + 1) dest offset count s) := by
  rw [elfCopyLoop]
  dsimp only
  split_ifs with hzero hpde hpte hread
  · exact .done hzero
  · exact .absent fun hmapped => by simp [hmapped.1] at hpde
  · refine .absent fun hmapped => ?_
    have hpresent := hmapped.2
    simp only [Bool.not_eq_true'] at hpte
    exact absurd (hpresent.symm.trans hpte) (by decide)
  · exact .short (Nat.pos_of_ne_zero hzero) ⟨by simpa using hpde, by simpa [Machine.pteAt] using hpte⟩ hread
  · exact .next (Nat.pos_of_ne_zero hzero) ⟨by simpa using hpde, by simpa [Machine.pteAt] using hpte⟩
      (not_not.mp hread)

/-- A copy of `count` bytes at `dest` comes to store at the first kernel
address: it is long enough, every page up to there is mapped, every read before
is complete, and the read there delivers something. -/
structure EscapesFrom (file : VfsFile) (m : Machine) (pd dest offset count : Nat) : Prop where
  le : dest ≤ kernelSpaceStart
  past : kernelSpaceStart < dest + count
  mapped : ∀ a, dest ≤ a → a ≤ kernelSpaceStart → MappedAt m pd a
  read : ∀ a, dest ≤ a → a < kernelSpaceStart → a = dest ∨ a % 4096 = 0 →
    (file.read (wrap32 (offset + (a - dest))) (elfChunk a (dest + count - a))).1 =
      elfChunk a (dest + count - a)
  stored : (file.read (wrap32 (offset + (kernelSpaceStart - dest)))
    (elfChunk kernelSpaceStart (dest + count - kernelSpaceStart))).2 ≠ []

theorem elfMapPage_stored (pd : Nat) (flags : Word) (s : ElfState) (addr : Nat) :
    (elfMapPage pd flags s addr).1.trace.stored = s.trace.stored := by
  unfold elfMapPage
  generalize s.machine.allocPage = res
  obtain ⟨m, phys⟩ := res
  dsimp only
  split_ifs
  · rfl
  · cases vmmMapPageInPd (m.clearFrame (frameOf phys)) pd addr phys flags <;> rfl

theorem elfMapPages_stored (pd : Nat) (flags : Word) (pages : List Nat) (s : ElfState) :
    (elfMapPages pd flags pages s).1.trace.stored = s.trace.stored := by
  induction pages generalizing s with
  | nil => rfl
  | cons addr rest ih =>
    have hpage := elfMapPage_stored pd flags s addr
    rw [elfMapPages]
    generalize elfMapPage pd flags s addr = res at hpage
    obtain ⟨s', status⟩ := res
    cases status
    · exact (ih s').trans hpage
    · exact hpage
    · exact hpage

theorem elfPrepare_stored (pd : Nat) (h : Elf32Phdr) (s : ElfState) :
    (elfPrepare pd h s).1.trace.stored = s.trace.stored := by
  unfold elfPrepare
  generalize vmaAdd s.vmaHead h.pVaddr h.memEnd h.vmaFlags s.kmallocs = res
  obtain ⟨vmas, ret, k⟩ := res
  dsimp only
  split_ifs
  · rfl
  · exact elfMapPages_stored pd h.pteFlags h.pages _

theorem Escaped.copyLoop {file : VfsFile} {pd rounds dest offset count : Nat} {s : ElfState}
    (h : Escaped s.trace) :
    Escaped (elfCopyLoop file pd rounds dest offset count s).1.trace := by
  induction rounds generalizing dest offset count s with
  | zero => exact h
  | succ rounds ih =>
    obtain ⟨st, hst, hcount, haddr⟩ := h
    have hmore : ∀ x : ElfStore, Escaped { s.trace with stored := x :: s.trace.stored } :=
      fun x => ⟨st, List.mem_cons_of_mem x hst, hcount, haddr⟩
    have hround := elfCopyLoop_round file pd rounds dest offset count s
    generalize elfCopyLoop file pd (rounds + 1) dest offset count s = res at hround ⊢
    cases hround with
    | done | absent => exact ⟨st, hst, hcount, haddr⟩
    | short => exact hmore _
    | next => exact ih (hmore _)

theorem Escaped.segment {file : VfsFile} {pd : Nat} {h : Elf32Phdr} {s : ElfState}
    (hs : Escaped s.trace) : Escaped (elfSegment file pd h s).1.trace := by
  have hprepare : Escaped (elfPrepare pd h s).1.trace := by
    obtain ⟨st, hst, hrest⟩ := hs
    exact ⟨st, by rwa [elfPrepare_stored], hrest⟩
  unfold elfSegment
  split_ifs
  · exact hs
  · generalize elfPrepare pd h s = res at hprepare
    obtain ⟨s', status⟩ := res
    cases status
    · exact hprepare.copyLoop
    · exact hprepare
    · exact hprepare

theorem Escaped.segments {file : VfsFile} {pd : Nat} {header : Elf32Header} {l : List Nat}
    {s : ElfState} (hs : Escaped s.trace) :
    Escaped (elfSegments file pd header l s).1.trace := by
  induction l generalizing s with
  | nil => exact hs
  | cons i rest ih =>
    rw [elfSegments]
    cases elfPhdr file header i with
    | none => exact hs
    | some h =>
      have hsegment : Escaped (elfSegment file pd h s).1.trace := hs.segment
      dsimp only
      generalize elfSegment file pd h s = res at hsegment
      obtain ⟨s', status⟩ := res
      cases status
      · exact ih hsegment
      · exact hsegment
      · exact hsegment

/-- Between two steps of a load that began in `m₀`: the ownership invariant,
untouched kernel frames, and a trace that explains every mapping of the directory. -/
structure ElfInv (m₀ : Machine) (own₀ : Nat → Owner) (pds : Finset Nat) (pd : Nat)
    (s : ElfState) (own : Nat → Owner) : Prop where
  inv : VmInv s.machine pds own
  kernel : KernelFrame m₀ own₀ s.machine own
  traced : ∀ i < 768, ∀ j < 1024, ∀ w, siteEntry s.machine (pd, i, j) = some w →
    hasFlag w pageCow = false ∧ ((i * 1024 + j) * 4096, frameOf w) ∈ s.trace.mapped
  confined : Confined s.trace

theorem page_eq (addr : Nat) :
    (dirIndex addr * 1024 + tableIndex addr) * 4096 = pageDown addr := by
  unfold dirIndex tableIndex pageDown
  omega

theorem mapFlags_segment (h : Elf32Phdr) : MapFlags h.pteFlags := by
  unfold Elf32Phdr.pteFlags
  split_ifs
  · exact ⟨by decide, by decide, by decide⟩
  · exact ⟨by decide, by decide, by decide⟩

/-- One page of the mapping loop: no memory, or a page mapped with the flags of the segment. -/
theorem VmInv.elfMapPage {s : ElfState} {pds : Finset Nat} {own : Nat → Owner} {pd : Nat}
    (h : VmInv s.machine pds own) (hpd : pd ∈ pds) {flags : Word} {addr : Nat}
    (haddr : addr < kernelSpaceStart) (hflags : MapFlags flags)
    (hplain : ∀ w, siteEntry s.machine (pd, dirIndex addr, tableIndex addr) = some w →
      hasFlag w pageCow = false) :
    (∃ m' own' l, elfMapPage pd flags s addr =
        ({ s with
            machine := m'
            trace := { s.trace with allocated := l ++ s.trace.allocated } }, .failed) ∧
      VmInv m' pds own' ∧ KernelFrame s.machine own m' own' ∧
      (∀ x ∈ userSites pds, siteEntry m' x = siteEntry s.machine x) ∧
      ∀ f, own f = .page → m'.mem f = s.machine.mem f) ∨
    (∃ m' own' n, elfMapPage pd flags s addr =
        ({ s with
            machine := m'
            trace := { s.trace with
              allocated := n :: s.trace.allocated
              mapped := (addr, n) :: s.trace.mapped } }, .ok) ∧
      n < pmmMaxPages ∧ EntryWritten s.machine pds own pd (dirIndex addr) (tableIndex addr)
        (frameAddr n ||| flags) m' own' ∧ m'.mem n = fun _ => 0#32) := by
  unfold EnclaveOS.elfMapPage
  rcases h.allocPage with halloc | ⟨n, hfree, hmax, hnz, halloc, hheld, hkernel⟩
  · rw [halloc]
    exact Or.inl ⟨s.machine, own, [], rfl, h, .refl s.machine own, fun _ _ => rfl, fun _ _ => rfl⟩
  · rw [halloc]
    simp only [hnz, if_false, frameOf_frameAddr hmax]
    rcases h.mapZeroed hpd haddr hflags hplain hfree hheld hkernel with
      ⟨m₃, own₃, hres, hfailed⟩ | ⟨m₃, own₃, hres, hmapped⟩
    · rw [hres]
      exact Or.inl ⟨_, own₃, [n], rfl, hfailed⟩
    · rw [hres]
      exact Or.inr ⟨m₃, own₃, n, rfl, hmax, hmapped⟩

namespace ElfInv

variable {m₀ : Machine} {own₀ own : Nat → Owner} {pds : Finset Nat} {pd : Nat} {s : ElfState}

theorem setVmas (h : ElfInv m₀ own₀ pds pd s own) (vmas : List Vma) (k : Kmalloc) :
    ElfInv m₀ own₀ pds pd { s with vmaHead := vmas, kmallocs := k } own :=
  ⟨h.inv, h.kernel, h.traced, h.confined⟩

/-- One page of the mapping loop. -/
theorem mapPage (h : ElfInv m₀ own₀ pds pd s own) (hpd : pd ∈ pds) {flags : Word} {addr : Nat}
    (haddr : addr < kernelSpaceStart) (haligned : addr % 4096 = 0) (hflags : MapFlags flags) :
    (elfMapPage pd flags s addr).2 ≠ .halted ∧
      ∃ own', ElfInv m₀ own₀ pds pd (elfMapPage pd flags s addr).1 own' := by
  have hi := (dirIndex_lt_768_iff addr).mpr haddr
  have hmem : ∀ i < 768, ∀ j < 1024, (pd, i, j) ∈ userSites pds :=
    fun i hi j hj => mem_userSites.mpr ⟨hpd, hi, hj⟩
  rcases h.inv.elfMapPage hpd haddr hflags fun w hw =>
      (h.traced _ hi _ (tableIndex_lt addr) w hw).1 with
    ⟨m', own', l, hres, hinv, hkernel, hentries, -⟩ | ⟨m', own', n, hres, hmax, hwritten, -⟩
  · rw [hres]
    refine ⟨by rintro ⟨⟩, own', hinv, h.kernel.trans hkernel, ?_, ⟨fun x hx => ?_, h.confined.stored⟩⟩
    · intro i hi j hj w hw
      have hw' : siteEntry m' (pd, i, j) = some w := hw
      rw [hentries _ (hmem i hi j hj)] at hw'
      exact h.traced i hi j hj w hw'
    · exact ⟨(h.confined.mapped x hx).1, List.mem_append_right l (h.confined.mapped x hx).2⟩
  · rw [hres]
    refine ⟨by rintro ⟨⟩, own', hwritten.inv, h.kernel.trans hwritten.kernel, ?_, ⟨?_, ?_⟩⟩
    · intro i hi j hj w hw
      have hw' : siteEntry m' (pd, i, j) = some w := hw
      rw [hwritten.entries _ (hmem i hi j hj)] at hw'
      by_cases hsame : (pd, i, j) = (pd, dirIndex addr, tableIndex addr)
      · cases hsame
        rw [Function.update_self, if_pos (hflags.mapped n)] at hw'
        cases hw'
        refine ⟨hflags.not_cow hmax, ?_⟩
        rw [page_eq, pageDown_eq_self haligned, hflags.frame hmax]
        exact List.mem_cons_self
      · rw [Function.update_of_ne hsame] at hw'
        obtain ⟨hplain, hin⟩ := h.traced i hi j hj w hw'
        exact ⟨hplain, List.mem_cons_of_mem _ hin⟩
    · intro x hx
      rcases List.mem_cons.mp hx with rfl | hx
      · exact ⟨haddr, List.mem_cons_self⟩
      · exact ⟨(h.confined.mapped x hx).1, List.mem_cons_of_mem _ (h.confined.mapped x hx).2⟩
    · intro st hst hcount
      obtain ⟨hlt, hfit, hin⟩ := h.confined.stored st hst hcount
      exact ⟨hlt, hfit, List.mem_cons_of_mem _ hin⟩

/-- The mapping loop. -/
theorem mapPages (h : ElfInv m₀ own₀ pds pd s own) (hpd : pd ∈ pds) {flags : Word}
    (hflags : MapFlags flags) {pages : List Nat}
    (hpages : ∀ a ∈ pages, a < kernelSpaceStart ∧ a % 4096 = 0) :
    (elfMapPages pd flags pages s).2 ≠ .halted ∧
      ∃ own', ElfInv m₀ own₀ pds pd (elfMapPages pd flags pages s).1 own' := by
  induction pages generalizing s own with
  | nil => exact ⟨by rintro ⟨⟩, own, h⟩
  | cons addr rest ih =>
    obtain ⟨haddr, haligned⟩ := hpages addr List.mem_cons_self
    obtain ⟨hstatus, own₁, h₁⟩ := h.mapPage hpd haddr haligned hflags
    rw [elfMapPages]
    generalize elfMapPage pd flags s addr = res at hstatus h₁
    obtain ⟨s', status⟩ := res
    cases status
    · exact ih h₁ fun a ha => hpages a (List.mem_cons_of_mem _ ha)
    · exact ⟨hstatus, own₁, h₁⟩
    · exact absurd rfl hstatus

/-- The pages of an accepted segment lie in user space. -/
theorem pages_lt {h : Elf32Phdr} (hend : h.memEnd ≤ kernelSpaceStart) {a : Nat}
    (ha : a ∈ h.pages) : a < kernelSpaceStart ∧ a % 4096 = 0 := by
  obtain ⟨n, hn, rfl⟩ := List.mem_map.mp ha
  have hn' := List.mem_range.mp hn
  have hup : pageUp h.memEnd ≤ kernelSpaceStart :=
    pageUp_le hend (by decide) kernelSpaceStart_le_lastPage
  have hmod := pageDown_mod h.pVaddr
  exact ⟨by omega, by omega⟩

/-- The area and the pages of a segment. -/
theorem prepare (h : ElfInv m₀ own₀ pds pd s own) (hpd : pd ∈ pds) (ph : Elf32Phdr) :
    (elfPrepare pd ph s).2 ≠ .halted ∧
      ((elfPrepare pd ph s).2 = .ok → ph.pVaddr < kernelSpaceStart) ∧
      ∃ own', ElfInv m₀ own₀ pds pd (elfPrepare pd ph s).1 own' := by
  have hcases := vmaAdd_cases s.vmaHead ph.pVaddr ph.memEnd ph.vmaFlags s.kmallocs
  unfold elfPrepare
  generalize vmaAdd s.vmaHead ph.pVaddr ph.memEnd ph.vmaFlags s.kmallocs = res at hcases
  obtain ⟨vmas, ret, k⟩ := res
  dsimp only at hcases ⊢
  have h' := h.setVmas vmas k
  rcases hcases with ⟨-, hret⟩ | ⟨hvaddr, hend, -, hret⟩
  · rw [if_pos (by omega)]
    exact ⟨by rintro ⟨⟩, by rintro ⟨⟩, own, h'⟩
  · rw [if_neg (by omega)]
    obtain ⟨hstatus, hown⟩ := h'.mapPages hpd (mapFlags_segment ph) fun a => pages_lt hend
    exact ⟨hstatus, fun _ => hvaddr, hown⟩

theorem kernelHalf (h : ElfInv m₀ own₀ pds pd s own) (h₀ : VmInv m₀ pds own₀) (hpd : pd ∈ pds)
    {i : Nat} (hi : 768 ≤ i) (hi' : i < 1024) : s.machine.mem pd i = m₀.mem pd i := by
  rw [h.inv.kernelHalf pd hpd i hi hi', h₀.kernelHalf pd hpd i hi hi', h.kernel.boot,
    h.kernel.mem _ _ h₀.boot]

/-- Stores into a data frame leave the mappings up to the first kernel page. -/
theorem mappedAt_store (h : ElfInv m₀ own₀ pds pd s own) (h₀ : VmInv m₀ pds own₀) (hpd : pd ∈ pds)
    (htables : ∀ i, 768 ≤ i → i < 1024 → isPresent (m₀.mem pd i) = true →
      ∃ use, own₀ (frameOf (m₀.mem pd i)) = .kernel use) {f : Nat} (hf : own f = .page)
    (offset : Nat) (bytes : List (BitVec 8)) {a : Nat} (ha : a ≤ kernelSpaceStart) :
    MappedAt (s.machine.storeBytes f offset bytes) pd a ↔ MappedAt s.machine pd a := by
  have hdir : (s.machine.storeBytes f offset bytes).mem pd = s.machine.mem pd := by
    apply Machine.storeBytes_mem_of_ne
    rintro rfl
    rw [h.inv.dir pd hpd] at hf
    cases hf
  unfold MappedAt Machine.pteAt
  rw [hdir]
  refine and_congr_right fun hpde => ?_
  rw [Machine.storeBytes_mem_of_ne]
  rintro rfl
  by_cases hlt : a < kernelSpaceStart
  · rw [h.inv.table pd hpd _ ((dirIndex_lt_768_iff a).mpr hlt) hpde] at hf
    cases hf
  · have hindex : dirIndex a = 768 := by
      unfold dirIndex kernelSpaceStart at *
      omega
    rw [hindex] at hpde hf
    rw [h.kernelHalf h₀ hpd le_rfl (by decide)] at hpde hf
    obtain ⟨use, huse⟩ := htables 768 le_rfl (by decide) hpde
    rw [(h.kernel.owner _ use).mp huse] at hf
    cases hf

/-- A chunk leaves the entries, and the pages of the other entries. -/
theorem storeChunk_sites (h : ElfInv m₀ own₀ pds pd s own) (hpd : pd ∈ pds) {dest : Nat}
    (hdest : dest < kernelSpaceStart) (hmapped : MappedAt s.machine pd dest) (o : Nat)
    (bytes : List (BitVec 8)) {x : Site} (hx : x ∈ userSites pds) :
    siteEntry (s.machine.storeBytes
        (frameOf (s.machine.pteAt pd (dirIndex dest) (tableIndex dest))) o bytes) x =
        siteEntry s.machine x ∧
      (x ≠ (pd, dirIndex dest, tableIndex dest) → ∀ f, siteFrame s.machine x = some f →
        (s.machine.storeBytes (frameOf (s.machine.pteAt pd (dirIndex dest) (tableIndex dest))) o
          bytes).mem f = s.machine.mem f) := by
  have hs := index_mem_userSites hpd hdest
  have hentry := siteEntry_eq_some.mpr ⟨hmapped.1, hmapped.2, rfl⟩
  generalize s.machine.pteAt pd (dirIndex dest) (tableIndex dest) = pte at hentry ⊢
  have hpage := h.inv.page _ hs _ hentry
  have hrest : ∀ g, g ≠ frameOf pte →
      (s.machine.storeBytes (frameOf pte) o bytes).mem g = s.machine.mem g :=
    fun g hg => Machine.storeBytes_mem_of_ne hg _ _
  refine ⟨h.inv.siteEntry_congr_of_ne (Or.inr (Or.inr hpage)) hrest hx, fun hne f hf => hrest f ?_⟩
  rintro rfl
  have hone := h.inv.cow _ hs _ hentry
    (h.traced _ ((dirIndex_lt_768_iff dest).mpr hdest) _ (tableIndex_lt dest) _ hentry).1
  have hrefs : userRefs s.machine pds (frameOf pte) ≤ 1 := by
    rw [← (h.inv.counted _ hpage).1]
    exact hone.le
  exact hne (site_unique hrefs hx hs hf (siteFrame_of_entry hentry))

/-- A chunk stored at a user address. -/
theorem storeChunk (h : ElfInv m₀ own₀ pds pd s own) (hpd : pd ∈ pds) {dest : Nat}
    (hdest : dest < kernelSpaceStart) (hmapped : MappedAt s.machine pd dest)
    (bytes : List (BitVec 8)) (hfit : dest % 4096 + bytes.length ≤ 4096) :
    own (frameOf (s.machine.pteAt pd (dirIndex dest) (tableIndex dest))) = .page ∧
      ElfInv m₀ own₀ pds pd (s.storeChunk pd dest bytes) own := by
  unfold ElfState.storeChunk
  have hi := (dirIndex_lt_768_iff dest).mpr hdest
  have hj := tableIndex_lt dest
  set pte := s.machine.pteAt pd (dirIndex dest) (tableIndex dest) with hpte
  have hentry : siteEntry s.machine (pd, dirIndex dest, tableIndex dest) = some pte :=
    siteEntry_eq_some.mpr ⟨hmapped.1, hmapped.2, rfl⟩
  have hpage : own (frameOf pte) = .page :=
    h.inv.page _ (mem_userSites.mpr ⟨hpd, hi, hj⟩) _ hentry
  have hrest : ∀ g, g ≠ frameOf pte →
      (s.machine.storeBytes (frameOf pte) (dest % 4096) bytes).mem g = s.machine.mem g :=
    fun g hg => Machine.storeBytes_mem_of_ne hg _ _
  obtain ⟨hinv, hkernel⟩ := h.inv.writeData (Or.inr hpage) _ (Machine.storeBytes_pmm _ _ _ _)
    (Machine.storeBytes_boot _ _ _ _) (Machine.storeBytes_kstack _ _ _ _) hrest
  refine ⟨hpage, hinv, h.kernel.trans hkernel, ?_, ⟨h.confined.mapped, ?_⟩⟩
  · intro i hi j hj w hw
    have hw' : siteEntry (s.machine.storeBytes (frameOf pte) (dest % 4096) bytes) (pd, i, j) =
        some w := hw
    rw [h.inv.siteEntry_congr_of_ne (Or.inr (Or.inr hpage)) hrest
      (mem_userSites.mpr ⟨hpd, hi, hj⟩)] at hw'
    exact h.traced i hi j hj w hw'
  · intro st hst hcount
    rcases List.mem_cons.mp hst with rfl | hst
    · refine ⟨hdest, hfit, ?_⟩
      rw [← page_eq]
      exact (h.traced _ hi _ hj pte hentry).2
    · exact h.confined.stored st hst hcount

theorem elfChunk_le (dest count : Nat) :
    elfChunk dest count ≤ count ∧ dest % 4096 + elfChunk dest count ≤ 4096 ∧
      (0 < count → 0 < elfChunk dest count) := by
  unfold elfChunk
  omega

/-- What remains of a copy after its first chunk escapes when the copy does. -/
theorem escapesFrom_next (file : VfsFile) {m m' : Machine} {dest offset : Nat} (count : Nat)
    (hdest : dest < kernelSpaceStart) (hoffset : offset < 4294967296)
    (hmapped : MappedAt m pd dest)
    (hread : (file.read offset (elfChunk dest count)).1 = elfChunk dest count)
    (hsame : ∀ a, a ≤ kernelSpaceStart → (MappedAt m' pd a ↔ MappedAt m pd a)) :
    EscapesFrom file m' pd (dest + elfChunk dest count)
        (wrap32 (offset + elfChunk dest count)) (count - elfChunk dest count) ↔
      EscapesFrom file m pd dest offset count := by
  obtain ⟨hle, hfit, hpos⟩ := elfChunk_le dest count
  have hnext : ∀ a, dest + elfChunk dest count ≤ a →
      wrap32 (wrap32 (offset + elfChunk dest count) + (a - (dest + elfChunk dest count))) =
        wrap32 (offset + (a - dest)) := by
    intro a ha
    unfold wrap32
    rw [Nat.mod_add_mod]
    congr 1
    omega
  have hsum : dest + elfChunk dest count + (count - elfChunk dest count) = dest + count := by omega
  constructor
  · rintro ⟨hle', hpast, hmap, hrd, hst⟩
    rw [hsum] at hpast hrd hst
    -- the copy is longer than the rest of the page
    have hwhole : elfChunk dest count = 4096 - dest % 4096 := by
      unfold elfChunk kernelSpaceStart at *
      omega
    refine ⟨hdest.le, hpast, fun a ha ha' => ?_, fun a ha ha' hstart => ?_, ?_⟩
    · by_cases hin : dest + elfChunk dest count ≤ a
      · exact (hsame a ha').mp (hmap a hin ha')
      · have hdir : dirIndex a = dirIndex dest := by
          unfold dirIndex
          omega
        have htable : tableIndex a = tableIndex dest := by
          unfold tableIndex
          omega
        unfold MappedAt
        rw [hdir, htable]
        exact hmapped
    · by_cases hin : dest + elfChunk dest count ≤ a
      · have := hrd a hin ha' (by omega)
        rwa [hnext a hin] at this
      · have heq : a = dest := by omega
        subst heq
        have hoff : wrap32 (offset + (a - a)) = offset := by
          unfold wrap32
          omega
        rw [hoff, Nat.add_sub_cancel_left]
        exact hread
    · rwa [hnext _ hle'] at hst
  · rintro ⟨-, hpast, hmap, hrd, hst⟩
    have hwhole : elfChunk dest count = 4096 - dest % 4096 := by
      unfold elfChunk kernelSpaceStart at *
      omega
    have hle' : dest + elfChunk dest count ≤ kernelSpaceStart := by
      unfold kernelSpaceStart at *
      omega
    refine ⟨hle', by rwa [hsum], fun a ha ha' => ?_, fun a ha ha' hstart => ?_, ?_⟩
    · exact (hsame a ha').mpr (hmap a (by omega) ha')
    · rw [hnext a ha, hsum]
      exact hrd a (by omega) ha' (Or.inr (by omega))
    · rw [hnext _ hle', hsum]
      exact hst

/-- The copy loop, started at or below the first kernel address: it keeps the
invariant unless it escapes, and then the trace shows it. -/
theorem copyLoop (file : VfsFile) (h₀ : VmInv m₀ pds own₀) (hpd : pd ∈ pds)
    (htables : ∀ i, 768 ≤ i → i < 1024 → isPresent (m₀.mem pd i) = true →
      ∃ use, own₀ (frameOf (m₀.mem pd i)) = .kernel use)
    {rounds dest offset count : Nat} (hdest : dest ≤ kernelSpaceStart)
    (hoffset : offset < 4294967296) (hrounds : count ≤ rounds)
    (h : ElfInv m₀ own₀ pds pd s own) :
    (¬ EscapesFrom file s.machine pd dest offset count →
      (elfCopyLoop file pd rounds dest offset count s).2 ≠ .halted ∧
        ElfInv m₀ own₀ pds pd (elfCopyLoop file pd rounds dest offset count s).1 own) ∧
    (EscapesFrom file s.machine pd dest offset count →
      Escaped (elfCopyLoop file pd rounds dest offset count s).1.trace) := by
  induction rounds generalizing dest offset count s with
  | zero =>
    refine ⟨fun _ => ⟨by rintro ⟨⟩, h⟩, fun hesc => ?_⟩
    have := hesc.past
    omega
  | succ rounds ih =>
    obtain ⟨hchunk, hfit, hpos⟩ := elfChunk_le dest count
    have hbound := file.bounded offset (elfChunk dest count)
    have hfull := file.full offset (elfChunk dest count)
    have hstored := fun (hlt : dest < kernelSpaceStart) hmapped => h.storeChunk hpd hlt hmapped
      (file.read offset (elfChunk dest count)).2 (by omega)
    have hround := elfCopyLoop_round file pd rounds dest offset count s
    generalize elfCopyLoop file pd (rounds + 1) dest offset count s = res at hround ⊢
    -- what the chunk at the first kernel address shows
    have hlast : 0 < count → MappedAt s.machine pd dest → dest = kernelSpaceStart →
        (file.read offset (elfChunk dest count)).2 ≠ [] →
        EscapesFrom file s.machine pd dest offset count ∧
          Escaped (s.storeChunk pd dest (file.read offset (elfChunk dest count)).2).trace := by
      intro hcount hmapped heq hbytes
      refine ⟨⟨hdest, by omega, fun a ha ha' => ?_, fun a ha ha' _ => by omega, ?_⟩,
        _, List.mem_cons_self, List.length_pos_iff.mpr hbytes, heq.ge⟩
      · rw [show a = dest by omega]
        exact hmapped
      · rw [← heq, Nat.sub_self, Nat.add_zero, Nat.add_sub_cancel_left, wrap32,
          Nat.mod_eq_of_lt hoffset]
        exact hbytes
    cases hround with
    | done hzero =>
      refine ⟨fun _ => ⟨by rintro ⟨⟩, h⟩, fun hesc => ?_⟩
      have := hesc.past
      omega
    | absent hmapped =>
      exact ⟨fun _ => ⟨by rintro ⟨⟩, h⟩,
        fun hesc => absurd (hesc.mapped dest le_rfl hdest) hmapped⟩
    | short hcount hmapped hread =>
      rcases Nat.lt_or_eq_of_le hdest with hlt | heq
      · -- below the kernel: the chunk goes to a page of the load
        obtain ⟨-, h'⟩ := hstored hlt hmapped
        refine ⟨fun _ => ⟨by rintro ⟨⟩, h'⟩, fun hesc => ?_⟩
        have hfirst := hesc.read dest le_rfl hlt (Or.inl rfl)
        rw [Nat.sub_self, Nat.add_zero, wrap32, Nat.mod_eq_of_lt hoffset,
          Nat.add_sub_cancel_left] at hfirst
        exact absurd hfirst hread
      · by_cases hbytes : (file.read offset (elfChunk dest count)).2 = []
        · rw [hbytes]
          refine ⟨fun _ => ⟨by rintro ⟨⟩, h.inv, h.kernel, h.traced, h.confined.mapped, ?_⟩,
            fun hesc => ?_⟩
          · intro st hst hcount
            rcases List.mem_cons.mp hst with rfl | hst
            · exact absurd hcount (by simp)
            · exact h.confined.stored st hst hcount
          · have hst := hesc.stored
            rw [← heq, Nat.sub_self, Nat.add_zero, wrap32, Nat.mod_eq_of_lt hoffset,
              Nat.add_sub_cancel_left] at hst
            exact absurd hbytes hst
        · obtain ⟨hesc, hescaped⟩ := hlast hcount hmapped heq hbytes
          exact ⟨fun hnot => absurd hesc hnot, fun _ => hescaped⟩
    | next hcount hmapped hread =>
      rcases Nat.lt_or_eq_of_le hdest with hlt | heq
      · obtain ⟨hpage, h'⟩ := hstored hlt hmapped
        have hsum : wrap32 (dest + elfChunk dest count) = dest + elfChunk dest count := by
          unfold wrap32 kernelSpaceStart at *
          omega
        have hnext := escapesFrom_next file count hlt hoffset hmapped hread
          fun a ha => h.mappedAt_store h₀ hpd htables hpage (dest % 4096)
            (file.read offset (elfChunk dest count)).2 ha
        rw [hsum, ← hnext]
        refine ih ?_ (Nat.mod_lt _ (by decide)) (by omega) h'
        unfold kernelSpaceStart at *
        omega
      · -- at the first kernel address: a single byte is too much
        have hbytes : (file.read offset (elfChunk dest count)).2 ≠ [] := by
          intro hnil
          have hlength := hfull hread
          rw [hnil, List.length_nil] at hlength
          omega
        obtain ⟨hesc, hescaped⟩ := hlast hcount hmapped heq hbytes
        exact ⟨fun hnot => absurd hesc hnot, fun _ => Escaped.copyLoop hescaped⟩

end ElfInv

/-- Reading the headers `l` from state `s`, the load comes to the copy
loop of segment `h` in state `t`. -/
inductive CopyReached (file : VfsFile) (pd : Nat) (header : Elf32Header) :
    List Nat → ElfState → Elf32Phdr → ElfState → Prop where
  | here {i : Nat} {rest : List Nat} {s t : ElfState} {h : Elf32Phdr}
      (hphdr : elfPhdr file header i = some h) (htype : h.pType = ptLoad)
      (hprepare : elfPrepare pd h s = (t, .ok)) :
      CopyReached file pd header (i :: rest) s h t
  | next {i : Nat} {rest : List Nat} {s s' t : ElfState} {h h' : Elf32Phdr}
      (hphdr : elfPhdr file header i = some h) (hsegment : elfSegment file pd h s = (s', .ok))
      (hrest : CopyReached file pd header rest s' h' t) :
      CopyReached file pd header (i :: rest) s h' t

/-- The copy loop of a segment escapes from the state it starts in. -/
def SegmentEscapes (file : VfsFile) (pd : Nat) (h : Elf32Phdr) (t : ElfState) : Prop :=
  EscapesFrom file t.machine pd h.pVaddr h.pOffset h.copySize

theorem elfPhdr_offset_lt {file : VfsFile} {header : Elf32Header} {i : Nat} {h : Elf32Phdr}
    (hphdr : elfPhdr file header i = some h) : h.pOffset < 4294967296 := by
  unfold elfPhdr at hphdr
  dsimp only at hphdr
  split_ifs at hphdr
  cases hphdr
  exact leField_lt _ 4 4

namespace ElfInv

variable {m₀ : Machine} {own₀ own : Nat → Owner} {pds : Finset Nat} {pd : Nat} {s : ElfState}

/-- One program header. -/
theorem segment (file : VfsFile) (h₀ : VmInv m₀ pds own₀) (hpd : pd ∈ pds)
    (htables : ∀ i, 768 ≤ i → i < 1024 → isPresent (m₀.mem pd i) = true →
      ∃ use, own₀ (frameOf (m₀.mem pd i)) = .kernel use)
    (h : ElfInv m₀ own₀ pds pd s own) {ph : Elf32Phdr} (hoffset : ph.pOffset < 4294967296) :
    ((∀ t, ph.pType = ptLoad → elfPrepare pd ph s = (t, .ok) → ¬ SegmentEscapes file pd ph t) →
      (elfSegment file pd ph s).2 ≠ .halted ∧
        ∃ own', ElfInv m₀ own₀ pds pd (elfSegment file pd ph s).1 own') ∧
    (∀ t, ph.pType = ptLoad → elfPrepare pd ph s = (t, .ok) → SegmentEscapes file pd ph t →
      Escaped (elfSegment file pd ph s).1.trace) := by
  obtain ⟨hstatus, hvaddr, own₁, h₁⟩ := h.prepare hpd ph
  unfold elfSegment
  by_cases htype : ph.pType = ptLoad
  swap
  · rw [if_pos htype]
    exact ⟨fun _ => ⟨by rintro ⟨⟩, own, h⟩, fun _ hload => absurd hload htype⟩
  rw [if_neg (by simpa using htype)]
  generalize elfPrepare pd ph s = res at hstatus hvaddr h₁
  obtain ⟨t, status⟩ := res
  cases status
  · obtain ⟨hkeep, hesc⟩ := h₁.copyLoop file h₀ hpd htables (hvaddr rfl).le hoffset
      (le_refl ph.copySize)
    refine ⟨fun hno => ?_, ?_⟩
    · obtain ⟨hne, hinv⟩ := hkeep (hno t htype rfl)
      exact ⟨hne, own₁, hinv⟩
    · rintro t' - hres hescapes
      cases hres
      exact hesc hescapes
  · refine ⟨fun _ => ⟨by rintro ⟨⟩, own₁, h₁⟩, ?_⟩
    rintro t' - hres
    cases hres
  · exact absurd rfl hstatus

/-- The loop over the program headers: the invariant holds at the end unless the
copy loop of some segment escapes, and then the trace shows it. -/
theorem segments (file : VfsFile) {header : Elf32Header} {l : List Nat}
    (h₀ : VmInv m₀ pds own₀) (hpd : pd ∈ pds)
    (htables : ∀ i, 768 ≤ i → i < 1024 → isPresent (m₀.mem pd i) = true →
      ∃ use, own₀ (frameOf (m₀.mem pd i)) = .kernel use)
    (h : ElfInv m₀ own₀ pds pd s own) :
    ((∀ ph t, CopyReached file pd header l s ph t → ¬ SegmentEscapes file pd ph t) →
      (elfSegments file pd header l s).2 ≠ .halted ∧
        ∃ own', ElfInv m₀ own₀ pds pd (elfSegments file pd header l s).1 own') ∧
    (∀ ph t, CopyReached file pd header l s ph t → SegmentEscapes file pd ph t →
      Escaped (elfSegments file pd header l s).1.trace) := by
  induction l generalizing s own with
  | nil => exact ⟨fun _ => ⟨by rintro ⟨⟩, own, h⟩, by rintro ph t ⟨⟩⟩
  | cons i rest ih =>
    rw [elfSegments]
    cases hphdr : elfPhdr file header i with
    | none =>
      refine ⟨fun _ => ⟨by rintro ⟨⟩, own, h⟩, ?_⟩
      rintro ph t (⟨hphdr', -, -⟩ | ⟨hphdr', -, -⟩)
      · rw [hphdr] at hphdr'
        cases hphdr'
      · rw [hphdr] at hphdr'
        cases hphdr'
    | some ph₀ =>
      obtain ⟨hkeep, hesc⟩ := h.segment file h₀ hpd htables (elfPhdr_offset_lt hphdr)
      obtain ⟨s', status, hres⟩ : ∃ a b, elfSegment file pd ph₀ s = (a, b) := ⟨_, _, rfl⟩
      rw [hres] at hkeep hesc
      simp only [hres]
      constructor
      · intro hno
        obtain ⟨hne, own₁, h₁⟩ := hkeep fun t htype hprepare =>
          hno ph₀ t (.here hphdr htype hprepare)
        cases status
        · exact (ih h₁).1 fun ph t hreach => hno ph t (.next hphdr hres hreach)
        · exact ⟨hne, own₁, h₁⟩
        · exact absurd rfl hne
      · rintro ph t (⟨hphdr', htype, hprepare⟩ | ⟨hphdr', hsegment, hreach⟩) hescapes
        · rw [hphdr] at hphdr'
          cases hphdr'
          have hbad := hesc t htype hprepare hescapes
          cases status
          · exact Escaped.segments hbad
          · exact hbad
          · exact hbad
        · rw [hphdr] at hphdr'
          cases hphdr'
          rw [hres] at hsegment
          cases hsegment
          by_cases hfirst : ∃ t', ph₀.pType = ptLoad ∧ elfPrepare pd ph₀ s = (t', .ok) ∧
              SegmentEscapes file pd ph₀ t'
          · obtain ⟨t', htype, hprepare, hescapes'⟩ := hfirst
            exact Escaped.segments (hesc t' htype hprepare hescapes')
          · push Not at hfirst
            obtain ⟨-, own₁, h₁⟩ := hkeep hfirst
            exact (ih h₁).2 ph t hreach hescapes

/-- A load that has done nothing, into a directory without user entries. -/
theorem start (h₀ : VmInv m₀ pds own₀) (hempty : ∀ i < 768, m₀.mem pd i = 0#32) (k : Kmalloc) :
    ElfInv m₀ own₀ pds pd (.start m₀ k) own₀ := by
  refine ⟨h₀, KernelFrame.refl m₀ own₀, ?_, ⟨?_, ?_⟩⟩
  · intro i hi j _ w hw
    obtain ⟨hpde, -, -⟩ := siteEntry_eq_some.mp hw
    change isPresent (m₀.mem pd i) = true at hpde
    rw [hempty i hi, isPresent_zero] at hpde
    cases hpde
  · rintro x ⟨⟩
  · rintro st ⟨⟩

end ElfInv

end EnclaveOS
