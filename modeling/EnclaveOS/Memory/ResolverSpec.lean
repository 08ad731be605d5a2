import EnclaveOS.Memory.BootSpec
import EnclaveOS.Memory.FaultSpec
import EnclaveOS.Memory.VmaScans

/-!
# ResolverSpec - what the write-fault resolver changes

`vmm_handle_user_write_fault` rewrites one entry, or copies one page into a fresh frame and
drops one reference, or changes nothing.  The reference counts are arbitrary; the directory and
the table of the address are allocated frames apart from each other and from the page.
-/

namespace EnclaveOS

open PageWord

theorem pageWrite_ownedEntry (pte : Word) : hasFlag (ownedEntry pte) pageWrite = true := by
  have hwrite : hasFlag pageWrite pageWrite = true := by decide
  rw [ownedEntry, hasFlag_or, hasFlag_or, hwrite, Bool.or_true, Bool.or_true]

theorem pageWrite_softEntry (pte : Word) : hasFlag (softEntry pte) pageWrite = true := by
  have hwrite : hasFlag pageWrite pageWrite = true := by decide
  rw [softEntry, hasFlag_or, hasFlag_or, hwrite, Bool.or_true, Bool.or_true]

theorem pageWrite_copiedEntry (pte newPhys : Word) :
    hasFlag (copiedEntry pte newPhys) pageWrite = true := by
  have hwrite : hasFlag pageWrite pageWrite = true := by decide
  rw [copiedEntry, hasFlag_or, hasFlag_or, hwrite, Bool.or_true, Bool.or_true]

theorem pageUser_ownedFlags (pte : Word) :
    hasFlag ((lowBits pte &&& ~~~pageCow) ||| pageWrite) pageUser = hasFlag pte pageUser := by
  have hwrite : hasFlag pageWrite pageUser = false := by decide
  rw [hasFlag_or, hasFlag_and_not_of_disjoint _ (by decide), hasFlag_lowBits _ (by decide), hwrite,
    Bool.or_false]

theorem pageUser_ownedEntry (pte : Word) :
    hasFlag (ownedEntry pte) pageUser = hasFlag pte pageUser := by
  rw [ownedEntry, hasFlag_or, pageUser_ownedFlags, hasFlag_physOf _ (by decide), Bool.false_or]

theorem pageUser_softEntry (pte : Word) :
    hasFlag (softEntry pte) pageUser = hasFlag pte pageUser := by
  have hwrite : hasFlag pageWrite pageUser = false := by decide
  rw [softEntry, hasFlag_or, hasFlag_or, hasFlag_physOf _ (by decide), hasFlag_lowBits _ (by decide),
    hwrite, Bool.false_or, Bool.or_false]

/-- A present entry that may be written, of the same privilege as before. -/
structure MadeWritable (pte w : Word) : Prop where
  present : isPresent pte = true → isPresent w = true
  user : hasFlag w pageUser = hasFlag pte pageUser
  write : hasFlag w pageWrite = true
  plain : hasFlag w pageCow = false

theorem madeWritable_owned (pte : Word) : MadeWritable pte (ownedEntry pte) :=
  ⟨isPresent_ownedEntry, pageUser_ownedEntry pte, pageWrite_ownedEntry pte, pageCow_ownedEntry pte⟩

theorem madeWritable_soft {pte : Word} (hplain : hasFlag pte pageCow = false) :
    MadeWritable pte (softEntry pte) :=
  ⟨isPresent_softEntry, pageUser_softEntry pte, pageWrite_softEntry pte,
    (pageCow_softEntry pte).trans hplain⟩

theorem madeWritable_copied {pte : Word} (hpte : isPresent pte = true) {n : Nat}
    (hn : n < 1048576) : MadeWritable pte (copiedEntry pte (frameAddr n)) where
  present _ := (mapFlags_copied hpte).mapped n
  user := by
    rw [copiedEntry, hasFlag_or, pageUser_ownedFlags, hasFlag_frameAddr hn (by decide),
      Bool.false_or]
  write := pageWrite_copiedEntry pte _
  plain := (mapFlags_copied hpte).not_cow hn

/-- The walk of an address in a directory ends in a present user entry of a small page. -/
structure UserEntry (m : Machine) (pd addr : Nat) : Prop where
  pde : isPresent (m.mem pd (dirIndex addr)) = true
  pte : isPresent (m.pteAt pd (dirIndex addr) (tableIndex addr)) = true
  user : hasFlag (m.pteAt pd (dirIndex addr) (tableIndex addr)) pageUser = true

/-- What the resolver has checked of the task. -/
structure ResolverEntered (m : Machine) (task : FaultTask) (addr pd : Nat) : Prop where
  pdir : task.pdirVirt = some pd
  space : addr < kernelSpaceStart
  area : ∃ vma, vmaFind task.vmaHead addr = some vma ∧ writableArea vma = true
  entry : UserEntry m pd addr

/-- A call ends without a change, or enters the resolver. -/
theorem vmmHandleUserWriteFault_cases (m : Machine) (task : FaultTask) (addr : Nat) :
    (∃ r, r ≠ .resolved ∧ vmmHandleUserWriteFault m task addr = (m, r)) ∨
    ∃ pd, ResolverEntered m task addr pd ∧ vmmHandleUserWriteFault m task addr =
      resolveWrite m (frameOf (m.mem pd (dirIndex addr))) (tableIndex addr) := by
  unfold vmmHandleUserWriteFault
  cases hpdir : task.pdirVirt with
  | none => exact Or.inl ⟨.errBadPd, by decide, rfl⟩
  | some pd =>
    dsimp only
    by_cases hspace : addr ≥ kernelSpaceStart
    · exact Or.inl ⟨.errPerm, by decide, if_pos hspace⟩
    rw [if_neg hspace]
    by_cases hboot : pd = m.bootPageDirectory
    · exact Or.inl ⟨.errBadPd, by decide, if_pos hboot⟩
    rw [if_neg hboot]
    cases hfind : vmaFind task.vmaHead addr with
    | none => exact Or.inl ⟨.errNoVma, by decide, rfl⟩
    | some vma =>
      dsimp only
      split_ifs with harea hpde hlarge hnull hpte huser hzero
      · exact Or.inl ⟨.errPerm, by decide, rfl⟩
      · exact Or.inl ⟨.notHandled, by decide, rfl⟩
      · exact Or.inl ⟨.errBadPd, by decide, rfl⟩
      · exact Or.inl ⟨.errBadPd, by decide, rfl⟩
      · exact Or.inl ⟨.notHandled, by decide, rfl⟩
      · exact Or.inl ⟨.errPerm, by decide, rfl⟩
      · exact Or.inl ⟨.errBadPd, by decide, rfl⟩
      · refine Or.inr ⟨pd, ⟨hpdir, Nat.not_le.mp hspace, ⟨vma, hfind, ?_⟩, ⟨?_, ?_, ?_⟩⟩, rfl⟩
        · simpa using harea
        · simpa using hpde
        · simpa [Machine.pteAt] using hpte
        · simpa [Machine.pteAt] using huser

/-- The page of an entry is shared copy-on-write. -/
def CowShared (m : Machine) (pte : Word) : Prop :=
  hasFlag pte pageCow = true ∧ 1 < pmmGetRefcount m.pmm (physOf pte)

/-- Page 0 is reserved, the directory and the table of an address are allocated frames apart from
each other and from the page, and a page with several references is allocated. -/
structure ResolverReady (m : Machine) (pd addr : Nat) : Prop where
  limit : m.pmm.maxPage ≤ pmmMaxPages
  zero : m.pmm.bitmap 0 = true
  dir : m.pmm.bitmap pd = true
  table : isPresent (m.mem pd (dirIndex addr)) = true →
    m.pmm.bitmap (frameOf (m.mem pd (dirIndex addr))) = true ∧
      frameOf (m.mem pd (dirIndex addr)) ≠ pd
  page : UserEntry m pd addr →
    frameOf (m.pteAt pd (dirIndex addr) (tableIndex addr)) ≠ frameOf (m.mem pd (dirIndex addr))
  counted : UserEntry m pd addr →
    1 < m.pmm.refcounts (frameOf (m.pteAt pd (dirIndex addr) (tableIndex addr))) →
      m.pmm.bitmap (frameOf (m.pteAt pd (dirIndex addr) (tableIndex addr))) = true

/-- The machine after the copy of the page of `pte` into the frame `n`. -/
def copiedMachine (m : Machine) (pt index n : Nat) : Machine :=
  (((m.withPmm (m.pmm.take n)).copyFrame n (frameOf (m.mem pt index))).decRef
    (physOf (m.mem pt index))).setWord pt index (copiedEntry (m.mem pt index) (frameAddr n))

/-- What the resolver does: nothing, one entry rewritten in place, or a copy. -/
theorem resolveWrite_cases {m : Machine} {pt index : Nat} (hlimit : m.pmm.maxPage ≤ pmmMaxPages)
    (hzero : m.pmm.bitmap 0 = true) :
    (∃ r, r ≠ .resolved ∧ resolveWrite m pt index = (m, r)) ∨
    (¬CowShared m (m.mem pt index) ∧ ∃ w, frameOf w = frameOf (m.mem pt index) ∧
      MadeWritable (m.mem pt index) w ∧
      resolveWrite m pt index = (m.setWord pt index w, .resolved)) ∨
    (CowShared m (m.mem pt index) ∧ ∃ n, m.pmm.bitmap n = false ∧ n < m.pmm.maxPage ∧
      resolveWrite m pt index = (copiedMachine m pt index n, .resolved)) := by
  unfold resolveWrite CowShared
  set pte := m.mem pt index with hpte
  by_cases hcow : hasFlag pte pageCow = true
  · by_cases hone : pmmGetRefcount m.pmm (physOf pte) ≤ 1
    · refine Or.inr (Or.inl ⟨fun h => absurd h.2 (Nat.not_lt.mpr hone), ownedEntry pte,
        frameOf_ownedEntry pte, madeWritable_owned pte, ?_⟩)
      simp [hcow, hone]
    · cases m.allocPage_cases with
      | inl hnone =>
        refine Or.inl ⟨.errOom, by decide, ?_⟩
        simp [hcow, hone, hnone]
      | inr hsome =>
        obtain ⟨n, hclear, hn, halloc⟩ := hsome
        have hframe : n < 1048576 := hn.trans_le hlimit
        have hnz : frameAddr n ≠ 0#32 := by
          rw [ne_eq, frameAddr_eq_zero_iff hframe]
          rintro rfl
          rw [hzero] at hclear
          cases hclear
        refine Or.inr (Or.inr ⟨⟨hcow, Nat.not_le.mp hone⟩, n, hclear, hn, ?_⟩)
        rw [copiedMachine, ← hpte]
        simp [hcow, hone, halloc, hnz, frameOf_frameAddr hframe, frameOf_physOf]
  · have hplain : hasFlag pte pageCow = false := by simpa using hcow
    have hnot : ¬(hasFlag pte pageCow = true ∧ 1 < pmmGetRefcount m.pmm (physOf pte)) :=
      fun h => hcow h.1
    by_cases hwrite : hasFlag pte pageWrite = true
    · refine Or.inr (Or.inl ⟨hnot, pte, rfl, ⟨id, rfl, hwrite, hplain⟩, ?_⟩)
      rw [Machine.setWord_self hpte.symm]
      simp [hplain, hwrite]
    · by_cases hone : pmmGetRefcount m.pmm (physOf pte) ≤ 1
      · refine Or.inr (Or.inl ⟨hnot, softEntry pte, frameOf_softEntry pte,
          madeWritable_soft hplain, ?_⟩)
        simp [hplain, hwrite, hone]
      · refine Or.inl ⟨.errPerm, by decide, ?_⟩
        simp [hplain, hwrite, hone]

/-- The entry is rewritten and nothing else. -/
structure EntryRewritten (m m' : Machine) (pt index : Nat) (w : Word) : Prop where
  entry : m'.mem pt index = w
  pmm : m'.pmm = m.pmm
  mem : ∀ g i, ¬(g = pt ∧ i = index) → m'.mem g i = m.mem g i

/-- The frame `old` is copied into the free frame `n`, loses one reference, and the entry
is rewritten. -/
structure PageCopied (m m' : Machine) (pt index old n : Nat) (w : Word) : Prop where
  fresh : m.pmm.bitmap n = false
  entry : m'.mem pt index = w
  bytes : m'.mem n = m.mem old
  bitmap : m'.pmm.bitmap = Function.update m.pmm.bitmap n true
  shared : 1 < m.pmm.refcounts old
  dropped : m'.pmm.refcounts old = m.pmm.refcounts old - 1
  one : m'.pmm.refcounts n = 1
  counts : ∀ f, f ≠ n → f ≠ old → m'.pmm.refcounts f = m.pmm.refcounts f
  mem : ∀ g i, g ≠ n → ¬(g = pt ∧ i = index) → m'.mem g i = m.mem g i

theorem entryRewritten_setWord (m : Machine) (pt index : Nat) (w : Word) :
    EntryRewritten m (m.setWord pt index w) pt index w where
  entry := Machine.setWord_mem_self _ _ _
  pmm := rfl
  mem g i hne := by rw [Machine.setWord_mem, if_neg hne]

/-- A count above 1 is the count of an allocated frame below the page limit. -/
theorem refcount_of_shared {m : Machine} {pte : Word} (h : CowShared m pte) :
    frameOf pte < m.pmm.maxPage ∧ 1 < m.pmm.refcounts (frameOf pte) := by
  have hcount := h.2
  rw [physOf_eq_frameAddr, pmmGetRefcount_frameAddr _ (frameOf_lt pte)] at hcount
  split_ifs at hcount with hlt
  · exact ⟨hlt, hcount⟩
  · omega

theorem pageCopied_copiedMachine {m : Machine} {pt index n : Nat}
    (hshared : CowShared m (m.mem pt index)) (hclear : m.pmm.bitmap n = false)
    (hcounted : 1 < m.pmm.refcounts (frameOf (m.mem pt index)) →
      m.pmm.bitmap (frameOf (m.mem pt index)) = true)
    (htable : m.pmm.bitmap pt = true) :
    PageCopied m (copiedMachine m pt index n) pt index (frameOf (m.mem pt index)) n
      (copiedEntry (m.mem pt index) (frameAddr n)) := by
  obtain ⟨hlt, hcount⟩ := refcount_of_shared hshared
  have hbit := hcounted hcount
  have hnew : ∀ f, m.pmm.bitmap f = true → f ≠ n := by
    rintro f hf rfl
    rw [hclear] at hf
    cases hf
  have hold : frameOf (m.mem pt index) ≠ n := hnew _ hbit
  have hpt : pt ≠ n := hnew _ htable
  have hpmm : (copiedMachine m pt index n).pmm =
      (m.pmm.take n).setRef (frameOf (m.mem pt index))
        (m.pmm.refcounts (frameOf (m.mem pt index)) - 1) := by
    have htake : (m.pmm.take n).refcounts (frameOf (m.mem pt index)) =
        m.pmm.refcounts (frameOf (m.mem pt index)) := Function.update_of_ne hold _ _
    have hset : (m.pmm.take n).bitmap (frameOf (m.mem pt index)) = true := by
      rw [Pmm.take_bitmap, Function.update_of_ne hold, hbit]
    show pmmDecRef (m.pmm.take n) (physOf (m.mem pt index)) = _
    rw [physOf_eq_frameAddr, pmmDecRef_frameAddr (m.pmm.take n) (frameOf_lt _) hlt
      (by rw [htake]; omega) hset, htake, if_neg (by omega)]
  refine ⟨hclear, Machine.setWord_mem_self _ _ _, ?_, ?_, hcount, ?_, ?_, ?_, ?_⟩
  · rw [copiedMachine, Machine.setWord_mem_of_ne hpt.symm, Machine.decRef_mem,
      Machine.copyFrame_mem_self, Machine.withPmm_mem]
  · rw [hpmm, Pmm.setRef_bitmap, Pmm.take_bitmap]
  · rw [hpmm, Pmm.setRef_refcounts, Function.update_self]
  · rw [hpmm, Pmm.setRef_refcounts, Function.update_of_ne hold.symm, Pmm.take_refcounts,
      Function.update_self]
  · intro f hn hne
    rw [hpmm, Pmm.setRef_refcounts, Function.update_of_ne hne, Pmm.take_refcounts,
      Function.update_of_ne hn]
  · intro g i hg hne
    rw [copiedMachine, Machine.setWord_mem, if_neg hne, Machine.decRef_mem,
      Machine.copyFrame_mem_of_ne hg, Machine.withPmm_mem]

/-- What `PF_RESOLVED` means for the walk of an address in the directory `pd`; the area
of the address is looked up at `place`. -/
structure WriteResolved (m : Machine) (task : FaultTask) (addr place pd : Nat) (m' : Machine) :
    Prop where
  pdir : task.pdirVirt = some pd
  space : addr < kernelSpaceStart
  area : ∃ vma ∈ task.vmaHead, vma.Holds place ∧ hasFlag vma.flags vmaRead = true ∧
    hasFlag vma.flags vmaWrite = true ∧ hasFlag vma.flags vmaExec = false
  before : UserEntry m pd addr
  after : UserEntry m' pd addr
  write : hasFlag (m'.pteAt pd (dirIndex addr) (tableIndex addr)) pageWrite = true
  plain : hasFlag (m'.pteAt pd (dirIndex addr) (tableIndex addr)) pageCow = false
  bytes : m'.mem (frameOf (m'.pteAt pd (dirIndex addr) (tableIndex addr))) =
    m.mem (frameOf (m.pteAt pd (dirIndex addr) (tableIndex addr)))
  owned : ¬CowShared m (m.pteAt pd (dirIndex addr) (tableIndex addr)) →
    EntryRewritten m m' (frameOf (m.mem pd (dirIndex addr))) (tableIndex addr)
      (m'.pteAt pd (dirIndex addr) (tableIndex addr))
  copied : CowShared m (m.pteAt pd (dirIndex addr) (tableIndex addr)) →
    PageCopied m m' (frameOf (m.mem pd (dirIndex addr))) (tableIndex addr)
      (frameOf (m.pteAt pd (dirIndex addr) (tableIndex addr)))
      (frameOf (m'.pteAt pd (dirIndex addr) (tableIndex addr)))
      (m'.pteAt pd (dirIndex addr) (tableIndex addr))

/-- Every outcome of a call; `place` is where the area of the address is looked up. -/
structure ResolverExact (m : Machine) (task : FaultTask) (addr place : Nat) : Prop where
  resolved : (vmmHandleUserWriteFault m task addr).2 = .resolved →
    ∃ pd, WriteResolved m task addr place pd (vmmHandleUserWriteFault m task addr).1
  otherwise : (vmmHandleUserWriteFault m task addr).2 ≠ .resolved →
    (vmmHandleUserWriteFault m task addr).1 = m

section Call

variable {m m' : Machine} {task : FaultTask} {addr pd : Nat}

/-- The area that was found holds the start of the page and may be read and written only. -/
theorem ResolverEntered.area_holds (h : ResolverEntered m task addr pd) :
    ∃ vma ∈ task.vmaHead, vma.Holds (pageDown addr) ∧ hasFlag vma.flags vmaRead = true ∧
      hasFlag vma.flags vmaWrite = true ∧ hasFlag vma.flags vmaExec = false := by
  obtain ⟨vma, hfind, harea⟩ := h.area
  obtain ⟨hmem, hholds⟩ := vmaFindPage_mem hfind
  refine ⟨vma, hmem, hholds, ?_⟩
  simp only [writableArea, Bool.and_eq_true, Bool.not_eq_true', Bool.and_eq_false_iff] at harea
  obtain ⟨⟨hread, hwrite⟩, hexec⟩ := harea
  exact ⟨hread, hwrite, hexec.resolve_left (by rw [hwrite]; decide)⟩

/-- A walk whose directory entry stays and whose entry is made writable. -/
theorem UserEntry.of_writable (h : UserEntry m pd addr) {w : Word}
    (hpde : m'.mem pd (dirIndex addr) = m.mem pd (dirIndex addr))
    (hentry : m'.mem (frameOf (m.mem pd (dirIndex addr))) (tableIndex addr) = w)
    (hw : MadeWritable (m.pteAt pd (dirIndex addr) (tableIndex addr)) w) :
    m'.pteAt pd (dirIndex addr) (tableIndex addr) = w ∧ UserEntry m' pd addr := by
  have hpte : m'.pteAt pd (dirIndex addr) (tableIndex addr) = w := by
    rw [Machine.pteAt, hpde, hentry]
  refine ⟨hpte, ?_, ?_, ?_⟩
  · rw [hpde]
    exact h.pde
  · rw [hpte]
    exact hw.present h.pte
  · rw [hpte, hw.user]
    exact h.user

/-- The resolver rewrote the entry in place. -/
theorem ResolverEntered.owned (h : ResolverEntered m task addr pd) (hready : ResolverReady m pd addr)
    (hnot : ¬CowShared m (m.pteAt pd (dirIndex addr) (tableIndex addr))) {w : Word}
    (hframe : frameOf w = frameOf (m.pteAt pd (dirIndex addr) (tableIndex addr)))
    (hw : MadeWritable (m.pteAt pd (dirIndex addr) (tableIndex addr)) w)
    (hm : EntryRewritten m m' (frameOf (m.mem pd (dirIndex addr))) (tableIndex addr) w) :
    WriteResolved m task addr (pageDown addr) pd m' := by
  have hne := (hready.table h.entry.pde).2
  have hpde : m'.mem pd (dirIndex addr) = m.mem pd (dirIndex addr) :=
    hm.mem _ _ fun hat => hne hat.1.symm
  obtain ⟨hpte, hafter⟩ := h.entry.of_writable hpde hm.entry hw
  refine ⟨h.pdir, h.space, h.area_holds, h.entry, hafter, ?_, ?_, ?_, ?_, ?_⟩
  · rw [hpte]
    exact hw.write
  · rw [hpte]
    exact hw.plain
  · rw [hpte, hframe]
    funext i
    exact hm.mem _ _ fun hat => hready.page h.entry hat.1
  · intro _
    rw [hpte]
    exact hm
  · exact fun hshared => absurd hshared hnot

/-- The resolver copied the page. -/
theorem ResolverEntered.copied (h : ResolverEntered m task addr pd)
    (hready : ResolverReady m pd addr)
    (hshared : CowShared m (m.pteAt pd (dirIndex addr) (tableIndex addr))) {n : Nat}
    (hn : n < m.pmm.maxPage)
    (hm : PageCopied m m' (frameOf (m.mem pd (dirIndex addr))) (tableIndex addr)
      (frameOf (m.pteAt pd (dirIndex addr) (tableIndex addr))) n
      (copiedEntry (m.pteAt pd (dirIndex addr) (tableIndex addr)) (frameAddr n))) :
    WriteResolved m task addr (pageDown addr) pd m' := by
  have hframe : n < 1048576 := hn.trans_le hready.limit
  have hne := (hready.table h.entry.pde).2
  have hpd : pd ≠ n := by
    rintro rfl
    have hbit := hready.dir
    rw [hm.fresh] at hbit
    cases hbit
  have hpde : m'.mem pd (dirIndex addr) = m.mem pd (dirIndex addr) :=
    hm.mem _ _ hpd fun hat => hne hat.1.symm
  have hw := madeWritable_copied h.entry.pte hframe
  obtain ⟨hpte, hafter⟩ := h.entry.of_writable hpde hm.entry hw
  have hnew : frameOf (m'.pteAt pd (dirIndex addr) (tableIndex addr)) = n := by
    rw [hpte]
    exact (mapFlags_copied h.entry.pte).frame hframe
  refine ⟨h.pdir, h.space, h.area_holds, h.entry, hafter, ?_, ?_, ?_, ?_, ?_⟩
  · rw [hpte]
    exact hw.write
  · rw [hpte]
    exact hw.plain
  · rw [hnew]
    exact hm.bytes
  · exact fun hnot => absurd hshared hnot
  · intro _
    rw [hnew, hpte]
    exact hm

/-- Every exit of `vmm_handle_user_write_fault` with its frame condition. -/
theorem write_fault_resolver (m : Machine) (task : FaultTask) (addr : Nat)
    (hready : ∀ pd, task.pdirVirt = some pd → ResolverReady m pd addr) :
    ResolverExact m task addr (pageDown addr) := by
  have hunchanged : ∀ r, r ≠ PfResult.resolved → vmmHandleUserWriteFault m task addr = (m, r) →
      ResolverExact m task addr (pageDown addr) := by
    intro r hr hres
    constructor
    · rw [hres]
      exact fun hresolved => absurd hresolved hr
    · rw [hres]
      exact fun _ => rfl
  have hchanged : ∀ m', (∃ pd, WriteResolved m task addr (pageDown addr) pd m') →
      vmmHandleUserWriteFault m task addr = (m', .resolved) →
      ResolverExact m task addr (pageDown addr) := by
    intro m' hm' hres
    constructor
    · rw [hres]
      exact fun _ => hm'
    · rw [hres]
      exact fun hne => absurd rfl hne
  rcases vmmHandleUserWriteFault_cases m task addr with ⟨r, hr, hres⟩ | ⟨pd, hentered, hres⟩
  · exact hunchanged r hr hres
  · have hpd := hready pd hentered.pdir
    have htable := (hpd.table hentered.entry.pde).1
    rcases @resolveWrite_cases m (frameOf (m.mem pd (dirIndex addr))) (tableIndex addr) hpd.limit
      hpd.zero with
      ⟨r, hr, hresolve⟩ | ⟨hnot, w, hframe, hw, hresolve⟩ | ⟨hshared, n, hclear, hn, hresolve⟩
    · exact hunchanged r hr (hres.trans hresolve)
    · exact hchanged _ ⟨pd, hentered.owned hpd hnot hframe hw (entryRewritten_setWord _ _ _ _)⟩
        (hres.trans hresolve)
    · exact hchanged _ ⟨pd, hentered.copied hpd hshared hn
        (pageCopied_copiedMachine hshared hclear (hpd.counted hentered.entry) htable)⟩ (hres.trans hresolve)

/-- The tables of a process are ready for the resolver. -/
theorem VmInv.resolverReady {pds : Finset Nat} {own : Nat → Owner} (h : VmInv m pds own)
    (hpd : pd ∈ pds) (haddr : addr < kernelSpaceStart) : ResolverReady m pd addr := by
  have hi := (dirIndex_lt_768_iff addr).mpr haddr
  have hallocated : ∀ f, (∀ use, own f ≠ .kernel use) → own f ≠ .free → m.pmm.bitmap f = true :=
    fun f hkernel hfree => h.bit_set hfree (h.lt_limit hkernel)
  have hpage : UserEntry m pd addr →
      own (frameOf (m.pteAt pd (dirIndex addr) (tableIndex addr))) = .page :=
    fun hentry => h.page_of_pte hpd hi (tableIndex_lt addr) hentry.pde hentry.pte
  refine ⟨h.limit, h.zeroBit, ?_, fun hpde => ⟨?_, ?_⟩, fun hentry heq => ?_, fun hentry _ => ?_⟩
  · exact hallocated pd (by simp [h.dir pd hpd]) (by simp [h.dir pd hpd])
  · have htable := h.table pd hpd _ hi hpde
    exact hallocated _ (by simp [htable]) (by simp [htable])
  · exact (h.table_ne_dir hpd hi hpde hpd).symm
  · have htable := h.table pd hpd _ hi hentry.pde
    rw [← heq, hpage hentry] at htable
    cases htable
  · exact hallocated _ (by simp [hpage hentry]) (by simp [hpage hentry])

end Call

/-- A process whose heap ends inside a page that it shares copy-on-write: its directory, its table
and the page are the frames 1, 2 and 3. -/
def sharedHeapMachine : Machine where
  pmm := ⟨fun f => decide (f ≠ 4), fun f => if f = 3 then 2 else 1, 16, 15, 16, 15, 0⟩
  mem g i := if g = 1 ∧ i = 64 then 0x2007#32 else if g = 2 ∧ i = 0 then 0x3205#32 else 0#32
  bootPageDirectory := 0
  kstackBitmap _ := false

def sharedHeapTask : FaultTask := ⟨some 1, [⟨0x10000000, 0x10000001, vmaRead ||| vmaWrite⟩]⟩

theorem sharedHeap_ready (pd : Nat) (hpd : sharedHeapTask.pdirVirt = some pd) :
    ResolverReady sharedHeapMachine pd 0x10000500 := by
  cases hpd
  refine ⟨by decide, by decide, by decide, fun _ => by decide, fun _ => by decide,
    fun _ _ => by decide⟩

/-- The page is copied. -/
theorem write_fault_resolver_sharedHeap :
    (vmmHandleUserWriteFault sharedHeapMachine sharedHeapTask 0x10000500).2 = .resolved ∧
      ResolverExact sharedHeapMachine sharedHeapTask 0x10000500 (pageDown 0x10000500) :=
  ⟨by decide, write_fault_resolver _ _ _ sharedHeap_ready⟩

/-- A fault behind the end of the heap, on its last page, is resolved. -/
theorem resolved_behind_heap_end : ¬ ∀ (m : Machine) (task : FaultTask) (addr : Nat),
    (∀ pd, task.pdirVirt = some pd → ResolverReady m pd addr) →
    ResolverExact m task addr addr := by
  intro hall
  have hexact := hall sharedHeapMachine sharedHeapTask 0x10000500 sharedHeap_ready
  obtain ⟨pd, hresolved⟩ := hexact.resolved (by decide)
  obtain ⟨vma, hmem, hholds, -⟩ := hresolved.area
  rw [List.mem_singleton.mp hmem] at hholds
  exact absurd hholds.2 (by decide)

end EnclaveOS
