import EnclaveOS.Foundation.RefCount
import EnclaveOS.Memory.Paging

/-!
# Ownership - who owns each physical frame

The invariant behind the memory claims.  Every frame has one owner: the free
pool, the kernel, a directory, one slot of a directory, or user data.  The
assignment of owners is not part of the machine; it exists only in the proofs,
and every primitive of `paging.c` comes with the assignment after it.
-/

namespace EnclaveOS

open PageWord RefCount

/-- A user-half entry: directory frame, directory index, table index. -/
abbrev Site := Nat × Nat × Nat

/-- The user-half entries of a set of directories. -/
def userSites (pds : Finset Nat) : Finset Site :=
  pds ×ˢ (Finset.range 768 ×ˢ Finset.range 1024)

/-- The page-table entry of a site, when both levels are present. -/
def siteEntry (m : Machine) (s : Site) : Option Word :=
  if isPresent (m.mem s.1 s.2.1) ∧ isPresent (m.pteAt s.1 s.2.1 s.2.2) then
    some (m.pteAt s.1 s.2.1 s.2.2)
  else none

/-- The frame a site maps. -/
def siteFrame (m : Machine) (s : Site) : Option Nat :=
  (siteEntry m s).map frameOf

/-- Number of user-half entries of the directories `pds` that map a frame. -/
def userRefs (m : Machine) (pds : Finset Nat) (f : Nat) : Nat :=
  refs (userSites pds) (siteFrame m) f

theorem mem_userSites {pds : Finset Nat} {pd i j : Nat} :
    (pd, i, j) ∈ userSites pds ↔ pd ∈ pds ∧ i < 768 ∧ j < 1024 := by
  simp [userSites]

theorem index_mem_userSites {pds : Finset Nat} {pd x : Nat} (hpd : pd ∈ pds)
    (hx : x < kernelSpaceStart) : (pd, dirIndex x, tableIndex x) ∈ userSites pds :=
  mem_userSites.mpr ⟨hpd, (dirIndex_lt_768_iff x).mpr hx, tableIndex_lt x⟩

theorem siteEntry_eq_some {m : Machine} {pd i j : Nat} {w : Word} :
    siteEntry m (pd, i, j) = some w ↔
      isPresent (m.mem pd i) = true ∧ isPresent w = true ∧ m.pteAt pd i j = w := by
  unfold siteEntry
  split_ifs with h
  · simp only [Option.some.injEq]
    constructor
    · rintro rfl
      exact ⟨h.1, h.2, rfl⟩
    · exact fun hw => hw.2.2
  · constructor
    · rintro ⟨⟩
    · rintro ⟨hpde, hpte, rfl⟩
      exact absurd ⟨hpde, hpte⟩ h

theorem siteEntry_eq_none {m : Machine} {pd i j : Nat}
    (h : isPresent (m.mem pd i) = true → isPresent (m.pteAt pd i j) = false) :
    siteEntry m (pd, i, j) = none := by
  unfold siteEntry
  rw [if_neg]
  rintro ⟨hpde, hpte⟩
  rw [h hpde] at hpte
  cases hpte

theorem siteFrame_eq_some {m : Machine} {s : Site} {f : Nat} :
    siteFrame m s = some f ↔ ∃ w, siteEntry m s = some w ∧ frameOf w = f := by
  simp [siteFrame]

theorem siteFrame_of_entry {m : Machine} {s : Site} {w : Word} (h : siteEntry m s = some w) :
    siteFrame m s = some (frameOf w) :=
  siteFrame_eq_some.mpr ⟨w, h, rfl⟩

theorem siteFrame_congr {m m' : Machine} {s : Site} (h : siteEntry m' s = siteEntry m s) :
    siteFrame m' s = siteFrame m s :=
  congrArg (Option.map frameOf) h

/-- What the kernel uses a frame of its own for. -/
inductive KernelUse where
  | reserved
  | pcb
  | stack (slot page : Nat)
deriving DecidableEq

/-- The owner of a physical frame. -/
inductive Owner where
  | free
  | kernel (use : KernelUse)
  | held
  | dir
  | table (pd i : Nat)
  | page
deriving DecidableEq

/-- Ownership invariant of the user halves of the directories `pds`. -/
structure VmInv (m : Machine) (pds : Finset Nat) (own : Nat → Owner) : Prop where
  /-- The page limit fits the bitmap. -/
  limit : m.pmm.maxPage ≤ pmmMaxPages
  /-- The clear bits are the free frames. -/
  free_iff : ∀ f < m.pmm.maxPage, own f = .free ↔ m.pmm.bitmap f = false
  /-- Frames beyond the limit never enter the pool. -/
  beyond : ∀ f, m.pmm.maxPage ≤ f → own f = .kernel .reserved
  /-- Frame 0 is reserved, so that address 0 means failure. -/
  zeroBit : m.pmm.bitmap 0 = true
  zero : own 0 = .kernel .reserved
  boot : own m.bootPageDirectory = .kernel .reserved
  dir : ∀ pd ∈ pds, own pd = .dir
  table : ∀ pd ∈ pds, ∀ i < 768, isPresent (m.mem pd i) = true →
    own (frameOf (m.mem pd i)) = .table pd i
  /-- Every directory has the kernel half of the kernel's own directory. -/
  kernelHalf : ∀ pd ∈ pds, ∀ i, 768 ≤ i → i < 1024 → m.mem pd i = m.mem m.bootPageDirectory i
  /-- No 4 MB entry in a user half. -/
  small : ∀ pd ∈ pds, ∀ i < 768, hasFlag (m.mem pd i) pagePs = false
  page : ∀ s ∈ userSites pds, ∀ w, siteEntry m s = some w → own (frameOf w) = .page
  /-- The reference count of a user page is its number of mappings. -/
  counted : ∀ f, own f = .page →
    m.pmm.refcounts f = userRefs m pds f ∧ 0 < m.pmm.refcounts f
  one : ∀ f, (own f = .held ∨ ∃ pd i, own f = .table pd i) → m.pmm.refcounts f = 1
  /-- A directory maps a frame at most once. -/
  single : ∀ pd i j i' j' f, (pd, i, j) ∈ userSites pds → (pd, i', j') ∈ userSites pds →
    siteFrame m (pd, i, j) = some f → siteFrame m (pd, i', j') = some f → i = i' ∧ j = j'
  /-- Without the copy-on-write marker a page is mapped once. -/
  cow : ∀ s ∈ userSites pds, ∀ w, siteEntry m s = some w → hasFlag w pageCow = false →
    m.pmm.refcounts (frameOf w) = 1
  /-- A marked page is read-only. -/
  marked : ∀ s ∈ userSites pds, ∀ w, siteEntry m s = some w → hasFlag w pageCow = true →
    hasFlag w pageWrite = false

/-- What a user-memory operation leaves to the kernel: its frames, with their
uses, and the globals. -/
structure KernelFrame (m : Machine) (own : Nat → Owner) (m' : Machine) (own' : Nat → Owner) :
    Prop where
  owner : ∀ f use, own f = .kernel use ↔ own' f = .kernel use
  mem : ∀ f use, own f = .kernel use → m'.mem f = m.mem f
  boot : m'.bootPageDirectory = m.bootPageDirectory
  maxPage : m'.pmm.maxPage = m.pmm.maxPage
  kstack : m'.kstackBitmap = m.kstackBitmap

namespace KernelFrame

variable {m m' m'' : Machine} {own own' own'' : Nat → Owner}

theorem refl (m : Machine) (own : Nat → Owner) : KernelFrame m own m own :=
  ⟨fun _ _ => Iff.rfl, fun _ _ _ => rfl, rfl, rfl, rfl⟩

theorem trans (h : KernelFrame m own m' own') (h' : KernelFrame m' own' m'' own'') :
    KernelFrame m own m'' own'' where
  owner f use := (h.owner f use).trans (h'.owner f use)
  mem f use hown := (h'.mem f use ((h.owner f use).mp hown)).trans (h.mem f use hown)
  boot := h'.boot.trans h.boot
  maxPage := h'.maxPage.trans h.maxPage
  kstack := h'.kstack.trans h.kstack

/-- Handing over a frame that is not the kernel's leaves the kernel alone. -/
theorem retag {f : Nat} {o : Owner} {p : Pmm}
    (hold : ∀ use, own f ≠ .kernel use) (hnew : ∀ use, o ≠ .kernel use)
    (hlimit : p.maxPage = m.pmm.maxPage) :
    KernelFrame m own (m.withPmm p) (Function.update own f o) := by
  refine ⟨fun g use => ?_, fun _ _ _ => rfl, rfl, hlimit, rfl⟩
  by_cases hg : g = f
  · subst hg
    rw [Function.update_self]
    exact ⟨fun hk => absurd hk (hold use), fun hk => absurd hk (hnew use)⟩
  · rw [Function.update_of_ne hg]

end KernelFrame

namespace VmInv

variable {m : Machine} {pds : Finset Nat} {own : Nat → Owner}

theorem lt_limit (h : VmInv m pds own) {f : Nat} (hf : ∀ use, own f ≠ .kernel use) :
    f < m.pmm.maxPage := by
  by_contra hge
  have huse := h.beyond f (Nat.not_lt.mp hge)
  exact hf _ huse

theorem lt_maxPages (h : VmInv m pds own) {f : Nat} (hf : ∀ use, own f ≠ .kernel use) :
    f < pmmMaxPages :=
  lt_of_lt_of_le (h.lt_limit hf) h.limit

theorem ne_zero (h : VmInv m pds own) {f : Nat} (hf : ∀ use, own f ≠ .kernel use) : f ≠ 0 := by
  rintro rfl
  have huse := h.zero
  exact hf _ huse

/-- Owned frames have their bitmap bit set. -/
theorem bit_set (h : VmInv m pds own) {f : Nat} (hf : own f ≠ .free)
    (hlimit : f < m.pmm.maxPage) : m.pmm.bitmap f = true := by
  cases hbit : m.pmm.bitmap f with
  | true => rfl
  | false => exact absurd ((h.free_iff f hlimit).mpr hbit) hf

theorem page_of_frame (h : VmInv m pds own) {s : Site} {f : Nat} (hs : s ∈ userSites pds)
    (hsite : siteFrame m s = some f) : own f = .page := by
  obtain ⟨w, hw, rfl⟩ := siteFrame_eq_some.mp hsite
  exact h.page s hs w hw

theorem page_of_pte (h : VmInv m pds own) {pd i j : Nat} (hpd : pd ∈ pds) (hi : i < 768)
    (hj : j < 1024) (hpde : isPresent (m.mem pd i) = true)
    (hpte : isPresent (m.pteAt pd i j) = true) : own (frameOf (m.pteAt pd i j)) = .page :=
  h.page _ (mem_userSites.mpr ⟨hpd, hi, hj⟩) _ (siteEntry_eq_some.mpr ⟨hpde, hpte, rfl⟩)

theorem refs_eq_zero (h : VmInv m pds own) {f : Nat} (hf : own f ≠ .page) :
    userRefs m pds f = 0 := by
  unfold userRefs
  rw [refs_eq_zero_iff]
  intro s hs hsite
  exact hf (h.page_of_frame hs hsite)

/-- A site only depends on directories and tables. -/
theorem siteEntry_congr (h : VmInv m pds own) {m' : Machine}
    (hmem : ∀ f, (own f = .dir ∨ ∃ pd i, own f = .table pd i) → m'.mem f = m.mem f) {s : Site}
    (hs : s ∈ userSites pds) : siteEntry m' s = siteEntry m s := by
  obtain ⟨a, b, c⟩ := s
  obtain ⟨ha, hb, -⟩ := mem_userSites.mp hs
  simp only [siteEntry, Machine.pteAt, hmem a (Or.inl (h.dir a ha))]
  cases hab : isPresent (m.mem a b) with
  | false => simp
  | true => simp [hmem _ (Or.inr ⟨a, b, h.table a ha b hb hab⟩)]

/-- Writes to one frame outside the page tables change no site. -/
theorem siteEntry_congr_of_ne (h : VmInv m pds own) {m' : Machine} {n : Nat}
    (hn : own n = .free ∨ own n = .held ∨ own n = .page)
    (hmem : ∀ g, g ≠ n → m'.mem g = m.mem g) {s : Site} (hs : s ∈ userSites pds) :
    siteEntry m' s = siteEntry m s := by
  apply h.siteEntry_congr _ hs
  intro f hf
  apply hmem
  rintro rfl
  rcases hn with hn | hn | hn <;> rw [hn] at hf <;> simp at hf

/-- A mapped frame is counted exactly and is not in the pool. -/
theorem mapped_frame (h : VmInv m pds own) {s : Site} {f : Nat} (hs : s ∈ userSites pds)
    (hsite : siteFrame m s = some f) :
    m.pmm.refcounts f = userRefs m pds f ∧ m.pmm.bitmap f = true := by
  have hown := h.page_of_frame hs hsite
  have hlimit : f < m.pmm.maxPage := h.lt_limit (by rw [hown]; rintro use ⟨⟩)
  exact ⟨(h.counted f hown).1, h.bit_set (by rw [hown]; rintro ⟨⟩) hlimit⟩

/-- A mapped frame is never the result of an allocation. -/
theorem alloc_not_mapped (h : VmInv m pds own) {s : Site} {f : Nat} (hs : s ∈ userSites pds)
    (hsite : siteFrame m s = some f) : (pmmAllocPage m.pmm).2 ≠ frameAddr f := by
  have hown := h.page_of_frame hs hsite
  have hf : ∀ use, own f ≠ .kernel use := by rw [hown]; rintro use ⟨⟩
  have hbit := (h.mapped_frame hs hsite).2
  rcases pmmAllocPage_cases m.pmm with halloc | ⟨g, hclear, hg, halloc⟩
  · rw [halloc]
    intro hzero
    exact h.ne_zero hf ((frameAddr_eq_zero_iff (h.lt_maxPages hf)).mp hzero.symm)
  · rw [halloc]
    intro heq
    have hfg : g = f := by
      have := congrArg frameOf heq
      rwa [frameOf_frameAddr (lt_of_lt_of_le hg h.limit), frameOf_frameAddr (h.lt_maxPages hf)]
        at this
    rw [hfg, hbit] at hclear
    cases hclear

theorem table_ne_dir (h : VmInv m pds own) {pd i a : Nat} (hpd : pd ∈ pds) (hi : i < 768)
    (hpde : isPresent (m.mem pd i) = true) (ha : a ∈ pds) : a ≠ frameOf (m.mem pd i) := by
  intro heq
  have hdir := h.dir a ha
  rw [heq, h.table pd hpd i hi hpde] at hdir
  cases hdir

/-- Two present directory entries share a table only if they are the same. -/
theorem table_inj (h : VmInv m pds own) {pd i a b : Nat} (hpd : pd ∈ pds) (hi : i < 768)
    (hpde : isPresent (m.mem pd i) = true) (ha : a ∈ pds) (hb : b < 768)
    (hab : isPresent (m.mem a b) = true)
    (heq : frameOf (m.mem a b) = frameOf (m.mem pd i)) : a = pd ∧ b = i := by
  have hown := h.table a ha b hb hab
  rw [heq, h.table pd hpd i hi hpde] at hown
  injection hown with ha' hb'
  exact ⟨ha'.symm, hb'.symm⟩

/-- A write to one page-table entry changes that site only. -/
theorem siteEntry_setPte (h : VmInv m pds own) {pd i : Nat} (hpd : pd ∈ pds) (hi : i < 768)
    (hpde : isPresent (m.mem pd i) = true) (j : Nat) (w : Word) {s : Site}
    (hs : s ∈ userSites pds) :
    siteEntry (m.setWord (frameOf (m.mem pd i)) j w) s =
      Function.update (siteEntry m) (pd, i, j) (if isPresent w = true then some w else none) s := by
  obtain ⟨a, b, c⟩ := s
  obtain ⟨ha, hb, -⟩ := mem_userSites.mp hs
  have hdir : (m.setWord (frameOf (m.mem pd i)) j w).mem a = m.mem a :=
    Machine.setWord_mem_of_ne (h.table_ne_dir hpd hi hpde ha) j w
  simp only [siteEntry, Machine.pteAt, hdir]
  cases hab : isPresent (m.mem a b) with
  | false =>
    have hne : (a, b, c) ≠ (pd, i, j) := by
      rintro ⟨⟩
      rw [hab] at hpde
      cases hpde
    simp [Function.update_of_ne hne, siteEntry, hab]
  | true =>
    rw [Machine.setWord_mem]
    by_cases hsame : (a, b, c) = (pd, i, j)
    · cases hsame
      simp
    · rw [Function.update_of_ne hsame]
      have hcell : ¬ (frameOf (m.mem a b) = frameOf (m.mem pd i) ∧ c = j) := by
        rintro ⟨heq, rfl⟩
        obtain ⟨rfl, rfl⟩ := h.table_inj hpd hi hpde ha hb hab heq
        exact hsame rfl
      rw [if_neg hcell]
      simp [siteEntry, Machine.pteAt, hab]

/-- What is needed of a page-table write at `(pd, i, j)` together with an
allocator step to keep the invariant with the owners `own'`. -/
structure PteWrite (m : Machine) (pds : Finset Nat) (own : Nat → Owner) (pd i j : Nat)
    (w : Word) (p : Pmm) (own' : Nat → Owner) : Prop where
  maxPage : p.maxPage = m.pmm.maxPage
  free_iff : ∀ f < m.pmm.maxPage, own' f = .free ↔ p.bitmap f = false
  /-- Only user pages and held frames change hands. -/
  keep : ∀ f, own f ≠ .page → own f ≠ .held → own' f = own f
  change : ∀ f, own f = .page ∨ own f = .held →
    own' f = .page ∨ own' f = .held ∨ own' f = .free
  /-- The other entries still map user pages, as private as before. -/
  stay : ∀ s ∈ userSites pds, s ≠ (pd, i, j) → ∀ v, siteEntry m s = some v →
    own' (frameOf v) = .page ∧ (hasFlag v pageCow = false → p.refcounts (frameOf v) = 1)
  new : isPresent w = true → own' (frameOf w) = .page
  counted : ∀ f, own' f = .page → 0 < p.refcounts f ∧
    p.refcounts f + (if siteFrame m (pd, i, j) = some f then 1 else 0) =
      userRefs m pds f + (if isPresent w = true ∧ frameOf w = f then 1 else 0)
  one : ∀ f, (own' f = .held ∨ ∃ a b, own' f = .table a b) → p.refcounts f = 1
  single : isPresent w = true → ∀ i' j', (pd, i', j') ∈ userSites pds →
    siteFrame m (pd, i', j') = some (frameOf w) → i' = i ∧ j' = j
  cow : isPresent w = true → hasFlag w pageCow = false → p.refcounts (frameOf w) = 1
  marked : isPresent w = true → hasFlag w pageCow = true → hasFlag w pageWrite = false

/-- A page-table write that meets `PteWrite` keeps the invariant. -/
theorem writePte (h : VmInv m pds own) {pd i j : Nat} {w : Word} {p : Pmm}
    {own' : Nat → Owner} (hpd : pd ∈ pds) (hi : i < 768) (hj : j < 1024)
    (hpde : isPresent (m.mem pd i) = true) (hw : PteWrite m pds own pd i j w p own') :
    VmInv ((m.withPmm p).setWord (frameOf (m.mem pd i)) j w) pds own' ∧
      KernelFrame m own ((m.withPmm p).setWord (frameOf (m.mem pd i)) j w) own' := by
  have hs₀ : (pd, i, j) ∈ userSites pds := mem_userSites.mpr ⟨hpd, hi, hj⟩
  have htable := h.table pd hpd i hi hpde
  -- owners other than user pages and held frames are as before
  have hkernel : ∀ f use, own f = .kernel use ↔ own' f = .kernel use := by
    intro f use
    by_cases hf : own f = .page ∨ own f = .held
    · rcases hf with hf | hf <;> rcases hw.change f (by simp [hf]) with hc | hc | hc <;>
        simp [hf, hc]
    · push Not at hf
      rw [hw.keep f hf.1 hf.2]
  have hdirs : ∀ a ∈ pds, own' a = .dir := by
    intro a ha
    have hown := h.dir a ha
    rw [hw.keep a (by simp [hown]) (by simp [hown]), hown]
  -- directories are not touched by the write
  have hmem : ∀ a ∈ pds, ((m.withPmm p).setWord (frameOf (m.mem pd i)) j w).mem a = m.mem a :=
    fun a ha => Machine.setWord_mem_of_ne (m := m.withPmm p) (h.table_ne_dir hpd hi hpde ha) j w
  have hentry : ∀ s ∈ userSites pds,
      siteEntry ((m.withPmm p).setWord (frameOf (m.mem pd i)) j w) s =
        Function.update (siteEntry m) (pd, i, j) (if isPresent w = true then some w else none) s :=
    fun s hs => h.siteEntry_setPte hpd hi hpde j w hs
  have hsite : ∀ s ∈ userSites pds,
      siteFrame ((m.withPmm p).setWord (frameOf (m.mem pd i)) j w) s =
        Function.update (siteFrame m) (pd, i, j)
          (if isPresent w = true then some (frameOf w) else none) s := by
    intro s hs
    rw [siteFrame, hentry s hs]
    by_cases hsame : s = (pd, i, j)
    · rw [hsame, Function.update_self, Function.update_self]
      split_ifs <;> rfl
    · rw [Function.update_of_ne hsame, Function.update_of_ne hsame]
      rfl
  -- an entry after the write is the new one, or was there before
  have hcases : ∀ s ∈ userSites pds, ∀ v,
      siteEntry ((m.withPmm p).setWord (frameOf (m.mem pd i)) j w) s = some v →
        v = w ∧ isPresent w = true ∨ s ≠ (pd, i, j) ∧ siteEntry m s = some v := by
    intro s hs v hv
    rw [hentry s hs] at hv
    by_cases hsame : s = (pd, i, j)
    · rw [hsame, Function.update_self] at hv
      split_ifs at hv with hpres
      cases hv
      exact Or.inl ⟨rfl, hpres⟩
    · rw [Function.update_of_ne hsame] at hv
      exact Or.inr ⟨hsame, hv⟩
  constructor
  · refine
      { limit := hw.maxPage ▸ h.limit
        free_iff := fun f hf => hw.free_iff f (by simpa [hw.maxPage] using hf)
        beyond := ?beyond
        zeroBit := ?zeroBit
        zero := ?zero
        boot := ?boot
        dir := hdirs
        table := ?table
        kernelHalf := ?kernelHalf
        small := ?small
        page := ?page
        counted := ?counted
        one := hw.one
        single := ?single
        cow := ?cow
        marked := ?marked }
    case beyond =>
      intro f hf
      have huse := h.beyond f (by simpa [hw.maxPage] using hf)
      exact (hkernel f _).mp huse
    case zeroBit =>
      have huse := h.zero
      have htpos := h.lt_limit (f := frameOf (m.mem pd i)) (by rw [htable]; rintro use ⟨⟩)
      cases hbit : p.bitmap 0 with
      | true => exact hbit
      | false =>
        have hfree := (hw.free_iff 0 (by omega)).mpr hbit
        rw [(hkernel 0 _).mp huse] at hfree
        cases hfree
    case zero =>
      have huse := h.zero
      exact (hkernel 0 _).mp huse
    case boot =>
      have huse := h.boot
      exact (hkernel _ _).mp huse
    case table =>
      intro a ha b hb hab
      rw [hmem a ha] at hab ⊢
      have hown := h.table a ha b hb hab
      rw [hw.keep _ (by simp [hown]) (by simp [hown]), hown]
    case kernelHalf =>
      intro a ha b hb hb'
      rw [hmem a ha, h.kernelHalf a ha b hb hb']
      refine (congrFun (Machine.setWord_mem_of_ne (m := m.withPmm p) ?_ j w) b).symm
      have huse := h.boot
      intro heq
      rw [heq, htable] at huse
      cases huse
    case small =>
      intro a ha b hb
      rw [hmem a ha]
      exact h.small a ha b hb
    case page =>
      intro s hs v hv
      rcases hcases s hs v hv with ⟨rfl, hpres⟩ | ⟨hne, hold⟩
      · exact hw.new hpres
      · exact (hw.stay s hs hne v hold).1
    case counted =>
      intro f hf
      obtain ⟨hpos, hcount⟩ := hw.counted f hf
      refine ⟨?_, hpos⟩
      have hrefs := refs_update hs₀ (siteFrame m)
        (if isPresent w = true then some (frameOf w) else none) f
      have hcongr : userRefs ((m.withPmm p).setWord (frameOf (m.mem pd i)) j w) pds f =
          refs (userSites pds) (Function.update (siteFrame m) (pd, i, j)
            (if isPresent w = true then some (frameOf w) else none)) f :=
        refs_congr hsite f
      have hnew : ((if isPresent w = true then some (frameOf w) else none) = some f) =
          (isPresent w = true ∧ frameOf w = f) := by
        by_cases hpres : isPresent w = true <;> simp [hpres]
      simp only [hnew] at hrefs
      simp only [userRefs] at hcongr hcount
      simp only [userRefs, Machine.setWord_pmm, Machine.withPmm_pmm, hcongr]
      omega
    case single =>
      intro a b c b' c' f hs hs' hf hf'
      rw [hsite _ hs] at hf
      rw [hsite _ hs'] at hf'
      by_cases h₁ : (a, b, c) = (pd, i, j)
      · cases h₁
        by_cases h₂ : (pd, b', c') = (pd, i, j)
        · cases h₂
          exact ⟨rfl, rfl⟩
        · rw [Function.update_self] at hf
          rw [Function.update_of_ne h₂] at hf'
          split_ifs at hf with hpres
          cases hf
          obtain ⟨rfl, rfl⟩ := hw.single hpres b' c' hs' hf'
          exact ⟨rfl, rfl⟩
      · by_cases h₂ : (a, b', c') = (pd, i, j)
        · cases h₂
          rw [Function.update_self] at hf'
          rw [Function.update_of_ne h₁] at hf
          split_ifs at hf' with hpres
          cases hf'
          exact hw.single hpres b c hs hf
        · rw [Function.update_of_ne h₁] at hf
          rw [Function.update_of_ne h₂] at hf'
          exact h.single a b c b' c' f hs hs' hf hf'
    case cow =>
      intro s hs v hv hplain
      rcases hcases s hs v hv with ⟨rfl, hpres⟩ | ⟨hne, hold⟩
      · exact hw.cow hpres hplain
      · exact (hw.stay s hs hne v hold).2 hplain
    case marked =>
      intro s hs v hv hcow
      rcases hcases s hs v hv with ⟨rfl, hpres⟩ | ⟨hne, hold⟩
      · exact hw.marked hpres hcow
      · exact h.marked s hs v hold hcow
  · refine ⟨hkernel, ?_, rfl, hw.maxPage, rfl⟩
    intro f use hf
    apply Machine.setWord_mem_of_ne (m := m.withPmm p)
    rintro rfl
    rw [htable] at hf
    cases hf

end VmInv

end EnclaveOS
