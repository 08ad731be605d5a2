import EnclaveOS.Memory.DirectMap

/-!
# KernelStackSpec - what a kernel stack takes and gives back

Only the entries of one slot are written, so that the allocator is followed entry by entry: which
frames the four data pages of a slot hold, and which bits of the page allocator they account for.
-/

namespace EnclaveOS

open PageWord

/-- The entry of page `q` of a slot. -/
def stackPte (m : Machine) (slot q : Nat) : Word := kernelPte m (stackVirt slot q)

/-- The frame at page `q` of a slot. -/
def stackFrame (m : Machine) (slot q : Nat) : Nat := frameOf (stackPte m slot q)

/-- The flags of a data page, without `PAGE_USER`. -/
def stackFlags : Word := pagePresent ||| pageWrite

section Entries

variable {m m' : Machine} {slot s q r : Nat}

/-- Writing one entry of a slot changes no other entry of a slot. -/
theorem stackPte_write (hd : DirectTables m) (hslot : slot < kernelStackSlots) (hq : q ≤ 4)
    (hs : s < kernelStackSlots) (hr : r ≤ 4) (p : Pmm) (w : Word) :
    stackPte ((m.withPmm p).setWord
        (frameOf (m.mem m.bootPageDirectory (dirIndex (stackVirt slot q))))
        (tableIndex (stackVirt slot q)) w) s r =
      if s = slot ∧ r = q then w else stackPte m s r := by
  obtain ⟨hlo, hhi⟩ := stackVirt_index hslot hq
  obtain ⟨hlo', hhi'⟩ := stackVirt_index hs hr
  have hdir := (SlotWrites.write hd hslot hq p w).dir
  unfold stackPte kernelPte Machine.pteAt
  rw [Machine.setWord_boot, Machine.withPmm_boot, hdir, Machine.setWord_mem]
  by_cases hsame : s = slot ∧ r = q
  · obtain ⟨rfl, rfl⟩ := hsame
    rw [if_pos ⟨rfl, rfl⟩, if_pos ⟨rfl, rfl⟩]
  · rw [if_neg hsame, if_neg]
    · rfl
    · intro hat
      have hindex := hd.inj _ _ hlo' hhi' hlo hhi hat.1
      exact hsame (stackVirt_inj hr hq hindex hat.2)

/-- Writes to one slot leave the entries of the others. -/
theorem SlotWrites.stackPte_eq (h : SlotWrites slot m m') (hd : DirectTables m)
    (hslot : slot < kernelStackSlots) (hs : s < kernelStackSlots) (hr : r ≤ 4) (hne : s ≠ slot) :
    stackPte m' s r = stackPte m s r := by
  have hslots : kernelStackSlots = 819 := by decide
  unfold stackPte
  rw [stackVirt_eq]
  apply h.kernelPte_eq hd hslot
  · unfold slotFrame
    omega
  · intro q hq
    unfold slotFrame
    omega

end Entries

/-- Each of the pages holds an allocated frame of its own, supervisor-only. -/
structure HoldsPages (m : Machine) (slot : Nat) (pages : List Nat) : Prop where
  entry : ∀ q ∈ pages, stackPte m slot q = frameAddr (stackFrame m slot q) ||| stackFlags
  lt : ∀ q ∈ pages, stackFrame m slot q < m.pmm.maxPage
  used : ∀ q ∈ pages, m.pmm.bitmap (stackFrame m slot q) = true
  inj : ∀ q ∈ pages, ∀ q' ∈ pages, stackFrame m slot q = stackFrame m slot q' → q = q'

theorem stackFlags_mapFlags : MapFlags stackFlags :=
  kernelMapFlags

theorem not_user_of_entry {f : Nat} (hf : f < 1048576) :
    hasFlag (frameAddr f ||| stackFlags) pageUser = false := by
  rw [hasFlag_or, hasFlag_frameAddr hf (by decide)]
  decide

namespace HoldsPages

variable {m m' : Machine} {slot : Nat} {pages : List Nat}

/-- The pages hold the same frames in a machine with the same entries. -/
theorem congr (h : HoldsPages m slot pages) (hpte : ∀ q ∈ pages, stackPte m' slot q = stackPte m slot q)
    (hmax : m'.pmm.maxPage = m.pmm.maxPage)
    (hused : ∀ q ∈ pages, m'.pmm.bitmap (stackFrame m slot q) = true) :
    HoldsPages m' slot pages := by
  have hframe : ∀ q ∈ pages, stackFrame m' slot q = stackFrame m slot q := fun q hq =>
    congrArg frameOf (hpte q hq)
  constructor
  · intro q hq
    rw [hframe q hq, hpte q hq]
    exact h.entry q hq
  · intro q hq
    rw [hframe q hq, hmax]
    exact h.lt q hq
  · intro q hq
    rw [hframe q hq]
    exact hused q hq
  · intro q hq q' hq' heq
    rw [hframe q hq, hframe q' hq'] at heq
    exact h.inj q hq q' hq' heq

end HoldsPages

/-- What freeing pages of a slot does. -/
structure PagesFreed (m m' : Machine) (slot : Nat) (pages : List Nat) : Prop where
  writes : SlotWrites slot m m'
  slots : m'.kstackBitmap = m.kstackBitmap
  maxPage : m'.pmm.maxPage = m.pmm.maxPage
  bitmap : ∀ f, m'.pmm.bitmap f = true ↔
    m.pmm.bitmap f = true ∧ ∀ q ∈ pages, stackFrame m slot q ≠ f

section Free

variable {m : Machine} {slot q : Nat} {pages : List Nat}

/-- Freeing a page that holds a frame. -/
theorem freeStackPage_eq (hmax : m.pmm.maxPage ≤ pmmMaxPages) (h : HoldsPages m slot pages)
    (hq : q ∈ pages) :
    freeStackPage m (stackVirt slot q) =
      (m.withPmm (m.pmm.release (stackFrame m slot q))).setWord
        (frameOf (m.mem m.bootPageDirectory (dirIndex (stackVirt slot q))))
        (tableIndex (stackVirt slot q)) 0#32 := by
  have hlt := h.lt q hq
  have hframe : stackFrame m slot q < 1048576 := lt_of_lt_of_le hlt hmax
  have hentry : m.mem (frameOf (m.mem m.bootPageDirectory (dirIndex (stackVirt slot q))))
      (tableIndex (stackVirt slot q)) = frameAddr (stackFrame m slot q) ||| stackFlags :=
    h.entry q hq
  have hfree : m.freePage (physOf (frameAddr (stackFrame m slot q) ||| stackFlags)) =
      m.withPmm (m.pmm.release (stackFrame m slot q)) := by
    rw [physOf_eq_frameAddr, stackFlags_mapFlags.frame hframe, Machine.freePage,
      pmmFreePage_frameAddr _ hframe, if_pos ⟨hlt, h.used q hq⟩]
  unfold freeStackPage
  dsimp only
  rw [hentry, if_pos (stackFlags_mapFlags.mapped _), hfree]

/-- Freeing pages returns exactly their frames. -/
theorem foldl_freeStackPage_exact (hd : DirectTables m) (hmax : m.pmm.maxPage ≤ pmmMaxPages)
    (hslot : slot < kernelStackSlots) (hpages : ∀ q ∈ pages, q ≤ 4) (hnodup : pages.Nodup)
    (h : HoldsPages m slot pages) :
    PagesFreed m (pages.foldl (fun m q => freeStackPage m (stackVirt slot q)) m) slot pages := by
  induction pages generalizing m with
  | nil => exact ⟨.ofMem rfl rfl, rfl, rfl, by simp⟩
  | cons q rest ih =>
    obtain ⟨hnew, hrest⟩ := List.nodup_cons.mp hnodup
    have hq := hpages q List.mem_cons_self
    have hrestPages : ∀ r ∈ rest, r ≤ 4 := fun r hr => hpages r (List.mem_cons_of_mem q hr)
    have hfirst := freeStackPage_eq hmax h List.mem_cons_self
    have hwrites : SlotWrites slot m (freeStackPage m (stackVirt slot q)) := by
      rw [hfirst]
      exact .write hd hslot hq _ _
    set m₁ := freeStackPage m (stackVirt slot q) with hm₁
    have hpte : ∀ r ∈ rest, stackPte m₁ slot r = stackPte m slot r := by
      intro r hr
      rw [hfirst, stackPte_write hd hslot hq hslot (hrestPages r hr), if_neg]
      rintro ⟨-, rfl⟩
      exact hnew hr
    have hbits : ∀ f, m₁.pmm.bitmap f = true ↔
        m.pmm.bitmap f = true ∧ stackFrame m slot q ≠ f := by
      intro f
      rw [hfirst, Machine.setWord_pmm, Machine.withPmm_pmm, Pmm.release_bitmap,
        Function.update_apply]
      split_ifs with heq
      · simp [heq]
      · simp [Ne.symm heq]
    have hmax₁ : m₁.pmm.maxPage = m.pmm.maxPage := by rw [hfirst]; rfl
    have hold₁ : HoldsPages m₁ slot rest := by
      refine HoldsPages.congr ⟨?_, ?_, ?_, ?_⟩ hpte hmax₁ ?_
      · exact fun r hr => h.entry r (List.mem_cons_of_mem q hr)
      · exact fun r hr => h.lt r (List.mem_cons_of_mem q hr)
      · exact fun r hr => h.used r (List.mem_cons_of_mem q hr)
      · exact fun r hr r' hr' => h.inj r (List.mem_cons_of_mem q hr) r' (List.mem_cons_of_mem q hr')
      · intro r hr
        refine (hbits _).mpr ⟨h.used r (List.mem_cons_of_mem q hr), fun heq => ?_⟩
        have := h.inj q List.mem_cons_self r (List.mem_cons_of_mem q hr) heq
        exact hnew (this ▸ hr)
    have hfreed := ih (hwrites.directTables hd) (hmax₁ ▸ hmax) hrestPages hrest hold₁
    rw [List.foldl_cons]
    refine ⟨hwrites.trans hfreed.writes, ?_, hfreed.maxPage.trans hmax₁, fun f => ?_⟩
    · rw [hfreed.slots, hfirst]
      rfl
    · have hframes : (∀ r ∈ rest, stackFrame m₁ slot r ≠ f) ↔
          ∀ r ∈ rest, stackFrame m slot r ≠ f := by
        refine forall₂_congr fun r hr => ?_
        rw [stackFrame, hpte r hr, stackFrame]
      rw [hfreed.bitmap, hbits, hframes, List.forall_mem_cons]
      exact and_assoc

end Free

/-- Pages of a slot hold frames that were free. -/
structure PagesLent (m m' : Machine) (slot : Nat) (pages : List Nat) : Prop where
  writes : SlotWrites slot m m'
  slots : m'.kstackBitmap = m.kstackBitmap
  maxPage : m'.pmm.maxPage = m.pmm.maxPage
  holds : HoldsPages m' slot pages
  fresh : ∀ q ∈ pages, m.pmm.bitmap (stackFrame m' slot q) = false
  bitmap : ∀ f, m'.pmm.bitmap f = true ↔
    m.pmm.bitmap f = true ∨ ∃ q ∈ pages, stackFrame m' slot q = f
  guard : stackPte m' slot 0 = stackPte m slot 0

section Map

variable {m m' : Machine} {slot p : Nat} {pages : List Nat}

theorem PagesLent.start (m : Machine) (slot : Nat) : PagesLent m m slot [] where
  writes := .ofMem rfl rfl
  slots := rfl
  maxPage := rfl
  holds := ⟨by simp, by simp, by simp, by simp⟩
  fresh := by simp
  bitmap := by simp
  guard := rfl

/-- The machine after a frame is taken and mapped at a page of a slot. -/
def mapFrame (m : Machine) (slot p n : Nat) : Machine :=
  (m.withPmm (m.pmm.take n)).setWord
    (frameOf (m.mem m.bootPageDirectory (dirIndex (stackVirt slot p))))
    (tableIndex (stackVirt slot p)) (frameAddr n ||| stackFlags)

theorem mapFrame_bitmap (m : Machine) (slot p n f : Nat) :
    (mapFrame m slot p n).pmm.bitmap f = true ↔ n = f ∨ m.pmm.bitmap f = true := by
  rw [mapFrame, Machine.setWord_pmm, Machine.withPmm_pmm, Pmm.take_bitmap, Function.update_apply]
  split_ifs with heq
  · simp [heq]
  · simp [Ne.symm heq]

theorem mapFrame_pte (hd : DirectTables m) (hslot : slot < kernelStackSlots) (hp : p ≤ 4) (n : Nat)
    {q : Nat} (hq : q ≤ 4) :
    stackPte (mapFrame m slot p n) slot q =
      if q = p then frameAddr n ||| stackFlags else stackPte m slot q := by
  rw [mapFrame, stackPte_write hd hslot hp hslot hq]
  simp

/-- One more page holds a frame that was free. -/
theorem HoldsPages.map (h : HoldsPages m slot pages) (hd : DirectTables m)
    (hmax : m.pmm.maxPage ≤ pmmMaxPages) (hslot : slot < kernelStackSlots) (hp : p ≤ 4)
    (hpages : ∀ q ∈ pages, q ≤ 4 ∧ q ≠ p) {n : Nat} (hclear : m.pmm.bitmap n = false)
    (hn : n < m.pmm.maxPage) :
    HoldsPages (mapFrame m slot p n) slot (p :: pages) ∧
      stackFrame (mapFrame m slot p n) slot p = n ∧
      ∀ q ∈ pages, stackFrame (mapFrame m slot p n) slot q = stackFrame m slot q := by
  have hframe : n < 1048576 := lt_of_lt_of_le hn hmax
  have hnewPte : stackPte (mapFrame m slot p n) slot p = frameAddr n ||| stackFlags := by
    rw [mapFrame_pte hd hslot hp n hp, if_pos rfl]
  have hnew : stackFrame (mapFrame m slot p n) slot p = n := by
    rw [stackFrame, hnewPte, stackFlags_mapFlags.frame hframe]
  have hpte : ∀ q ∈ pages, stackPte (mapFrame m slot p n) slot q = stackPte m slot q := by
    intro q hq
    rw [mapFrame_pte hd hslot hp n (hpages q hq).1, if_neg (hpages q hq).2]
  have hold : HoldsPages (mapFrame m slot p n) slot pages :=
    h.congr hpte rfl fun q hq => (mapFrame_bitmap m slot p n _).mpr (Or.inr (h.used q hq))
  have hframes : ∀ q ∈ pages, stackFrame (mapFrame m slot p n) slot q = stackFrame m slot q :=
    fun q hq => congrArg frameOf (hpte q hq)
  have hdiffers : ∀ q ∈ pages, stackFrame (mapFrame m slot p n) slot q ≠ n := by
    intro q hq heq
    have hused := h.used q hq
    rw [← hframes q hq, heq, hclear] at hused
    cases hused
  refine ⟨⟨?_, ?_, ?_, ?_⟩, hnew, hframes⟩
  · exact List.forall_mem_cons.mpr ⟨by rw [hnew, hnewPte], hold.entry⟩
  · exact List.forall_mem_cons.mpr ⟨by rw [hnew]; exact hn, hold.lt⟩
  · refine List.forall_mem_cons.mpr ⟨?_, hold.used⟩
    exact (mapFrame_bitmap m slot p n _).mpr (Or.inl hnew.symm)
  · intro q hq q' hq' heq
    cases hq with
    | head =>
      cases hq' with
      | head => rfl
      | tail _ hq' => exact absurd (heq.symm.trans hnew) (hdiffers q' hq')
    | tail _ hq =>
      cases hq' with
      | head => exact absurd (heq.trans hnew) (hdiffers q hq)
      | tail _ hq' => exact hold.inj q hq q' hq' heq

/-- Mapping a free frame at the next page. -/
theorem PagesLent.map (h : PagesLent m m' slot pages) (hd : DirectTables m)
    (hmax : m.pmm.maxPage ≤ pmmMaxPages) (hslot : slot < kernelStackSlots) (hp₁ : 1 ≤ p)
    (hp₄ : p ≤ 4) (hpages : ∀ q ∈ pages, q ≤ 4 ∧ q ≠ p) {n : Nat}
    (hclear : m'.pmm.bitmap n = false) (hn : n < m'.pmm.maxPage) :
    PagesLent m (mapFrame m' slot p n) slot (p :: pages) := by
  have hd' := h.writes.directTables hd
  obtain ⟨hholds, hnew, hold⟩ := h.holds.map hd' (h.maxPage ▸ hmax) hslot hp₄ hpages hclear hn
  refine ⟨h.writes.trans (.write hd' hslot hp₄ _ _), h.slots, h.maxPage, hholds, ?_, ?_, ?_⟩
  · refine List.forall_mem_cons.mpr ⟨?_, fun q hq => ?_⟩
    · have hnot : ¬m'.pmm.bitmap n = true := by simp [hclear]
      rw [h.bitmap] at hnot
      rw [hnew]
      simpa using (not_or.mp hnot).1
    · rw [hold q hq]
      exact h.fresh q hq
  · intro f
    have hframes : (∃ q ∈ pages, stackFrame (mapFrame m' slot p n) slot q = f) ↔
        ∃ q ∈ pages, stackFrame m' slot q = f :=
      exists_congr fun q => and_congr_right fun hq => by rw [hold q hq]
    rw [mapFrame_bitmap, h.bitmap]
    simp only [List.mem_cons, exists_eq_or_imp, hnew, hframes]
    exact or_left_comm
  · rw [mapFrame_pte hd' hslot hp₄ n (by omega), if_neg (by omega)]
    exact h.guard

/-- The rollback takes back exactly what was lent. -/
theorem PagesLent.rollback (h : PagesLent m m' slot pages) (hd : DirectTables m)
    (hmax : m.pmm.maxPage ≤ pmmMaxPages) (hslot : slot < kernelStackSlots)
    (hpages : ∀ q, q ∈ pages ↔ 1 ≤ q ∧ q < p) (hp₄ : p ≤ 5) :
    PagesFreed m' ((List.range' 1 (p - 1)).foldl (fun m q => freeStackPage m (stackVirt slot q)) m')
        slot (List.range' 1 (p - 1)) ∧
      ((List.range' 1 (p - 1)).foldl (fun m q => freeStackPage m (stackVirt slot q))
        m').pmm.bitmap = m.pmm.bitmap := by
  have hmem : ∀ q, q ∈ List.range' 1 (p - 1) ↔ q ∈ pages := by
    intro q
    rw [List.mem_range'_1, hpages]
    omega
  have hholds : HoldsPages m' slot (List.range' 1 (p - 1)) := by
    constructor
    · exact fun q hq => h.holds.entry q ((hmem q).mp hq)
    · exact fun q hq => h.holds.lt q ((hmem q).mp hq)
    · exact fun q hq => h.holds.used q ((hmem q).mp hq)
    · exact fun q hq q' hq' => h.holds.inj q ((hmem q).mp hq) q' ((hmem q').mp hq')
  have hfreed := foldl_freeStackPage_exact (h.writes.directTables hd) (h.maxPage ▸ hmax) hslot
    (fun q hq => by rw [List.mem_range'_1] at hq; omega) List.nodup_range' hholds
  refine ⟨hfreed, ?_⟩
  funext f
  rw [Bool.eq_iff_iff, hfreed.bitmap, h.bitmap]
  constructor
  · intro hkept
    refine hkept.1.resolve_right fun hlent => ?_
    obtain ⟨q, hq, heq⟩ := hlent
    exact hkept.2 q ((hmem q).mpr hq) heq
  · intro hset
    refine ⟨Or.inl hset, fun q hq heq => ?_⟩
    have hfresh := h.fresh q ((hmem q).mp hq)
    rw [heq, hset] at hfresh
    cases hfresh

/-- What the mapping loop returns: the whole stack, or nothing taken. -/
theorem mapStackPages_exact (hd : DirectTables m) (hmax : m.pmm.maxPage ≤ pmmMaxPages)
    (hzero : m.pmm.bitmap 0 = true) (hslot : slot < kernelStackSlots)
    (hpages : ∀ q, q ∈ pages ↔ 1 ≤ q ∧ q < p) (hp : 1 ≤ p) (hp₅ : p ≤ 5)
    (h : PagesLent m m' slot pages) :
    (∃ m₂ l, mapStackPages slot (List.range' p (5 - p)) m' =
        .allocated m₂ (kernelStackTop slot) ∧ PagesLent m m₂ slot l ∧
      ∀ q, q ∈ l ↔ 1 ≤ q ∧ q < 5) ∨
    (∃ m₂, mapStackPages slot (List.range' p (5 - p)) m' = .failed m₂ ∧ SlotWrites slot m m₂ ∧
      m₂.pmm.bitmap = m.pmm.bitmap ∧ m₂.pmm.maxPage = m.pmm.maxPage ∧
      m₂.kstackBitmap = Function.update m.kstackBitmap slot false) := by
  obtain ⟨d, hlen⟩ : ∃ d, 5 - p = d := ⟨_, rfl⟩
  induction d generalizing m' p pages with
  | zero =>
    have hend : p = 5 := by omega
    subst hend
    exact Or.inl ⟨m', pages, rfl, h, hpages⟩
  | succ d ih =>
    rw [hlen, List.range'_succ, mapStackPages]
    cases m'.allocPage_cases with
    | inl hnone =>
      right
      obtain ⟨hfreed, hbits⟩ := h.rollback hd hmax hslot hpages hp₅
      rw [hnone]
      refine ⟨_, rfl, (h.writes.trans hfreed.writes).trans (.ofMem rfl rfl), hbits,
        hfreed.maxPage.trans h.maxPage, ?_⟩
      exact congrArg (fun b => Function.update b slot false) (hfreed.slots.trans h.slots)
    | inr hsome =>
      obtain ⟨n, hclear, hn, halloc⟩ := hsome
      have hframe : n < 1048576 := lt_of_lt_of_le hn (h.maxPage ▸ hmax)
      have hnz : frameAddr n ≠ 0#32 := by
        rw [ne_eq, frameAddr_eq_zero_iff hframe]
        rintro rfl
        rw [(h.bitmap 0).mpr (Or.inl hzero)] at hclear
        cases hclear
      have hp₄ : p ≤ 4 := by omega
      obtain ⟨hlo, hhi⟩ := stackVirt_index hslot hp₄
      have hmap : vmmMapPage (m'.withPmm (m'.pmm.take n)) (kernelStackBase slot + p * 4096)
          (frameAddr n) (pagePresent ||| pageWrite) = some (mapFrame m' slot p n) :=
        vmmMapPage_eq _ _ ((h.writes.directTables hd).table _ hlo hhi).1
      have hlow : ∀ q ∈ pages, q ≤ 4 ∧ q ≠ p := fun q hq => by
        have hq' := (hpages q).mp hq
        omega
      have hlent := h.map hd hmax hslot hp hp₄ hlow hclear hn
      have hnext := ih (p := p + 1) (fun q => by rw [List.mem_cons, hpages]; omega) (by omega) (by omega) hlent
        (by omega)
      have hrest : 5 - (p + 1) = d := by omega
      rw [hrest] at hnext
      rw [halloc]
      dsimp only
      rw [if_neg hnz, hmap]
      exact hnext

end Map

/-- The data pages of a slot. -/
def dataPages : List Nat := [1, 2, 3, 4]

theorem mem_dataPages {q : Nat} : q ∈ dataPages ↔ 1 ≤ q ∧ q < 5 := by
  simp only [dataPages, List.mem_cons, List.not_mem_nil, or_false]
  omega

/-- A stack is given out in a free slot, with four frames that were free. -/
structure StackGiven (m m' : Machine) (slot : Nat) : Prop where
  lt : slot < kernelStackSlots
  unused : m.kstackBitmap slot = false
  slots : m'.kstackBitmap = Function.update m.kstackBitmap slot true
  writes : SlotWrites slot m m'
  maxPage : m'.pmm.maxPage = m.pmm.maxPage
  holds : HoldsPages m' slot dataPages
  fresh : ∀ q ∈ dataPages, m.pmm.bitmap (stackFrame m' slot q) = false
  bitmap : ∀ f, m'.pmm.bitmap f = true ↔
    m.pmm.bitmap f = true ∨ ∃ q ∈ dataPages, stackFrame m' slot q = f
  guard : isPresent (stackPte m' slot 0) = false

/-- Nothing is taken, and at most the entries of an unused slot are written. -/
structure StackRefused (m m' : Machine) : Prop where
  slots : m'.kstackBitmap = m.kstackBitmap
  bitmap : m'.pmm.bitmap = m.pmm.bitmap
  maxPage : m'.pmm.maxPage = m.pmm.maxPage
  writes : m' = m ∨ ∃ slot < kernelStackSlots, m.kstackBitmap slot = false ∧ SlotWrites slot m m'

section Whole

variable {m m' : Machine} {slot : Nat}

/-- The guard page of a slot is unmapped first. -/
theorem unmapGuard_exact (hd : DirectTables m) (hslot : slot < kernelStackSlots) :
    SlotWrites slot m (vmmUnmapPageInPd m m.bootPageDirectory (kernelStackBase slot)) ∧
      (vmmUnmapPageInPd m m.bootPageDirectory (kernelStackBase slot)).pmm = m.pmm ∧
      (vmmUnmapPageInPd m m.bootPageDirectory (kernelStackBase slot)).kstackBitmap =
        m.kstackBitmap ∧
      isPresent (stackPte (vmmUnmapPageInPd m m.bootPageDirectory (kernelStackBase slot)) slot 0) =
        false := by
  have hvirt : kernelStackBase slot = stackVirt slot 0 := rfl
  obtain ⟨hlo, hhi⟩ := stackVirt_index hslot (Nat.zero_le 4)
  have hpde := (hd.table _ hlo hhi).1
  unfold vmmUnmapPageInPd
  rw [hvirt]
  dsimp only
  rw [hpde]
  simp only [Bool.not_true, Bool.false_eq_true, if_false]
  split_ifs with hpte
  · refine ⟨.write hd hslot (Nat.zero_le 4) m.pmm _, rfl, rfl, ?_⟩
    have hwrite := stackPte_write hd hslot (Nat.zero_le 4) hslot (Nat.zero_le 4) m.pmm 0#32
    rw [if_pos ⟨rfl, rfl⟩] at hwrite
    change isPresent (stackPte ((m.withPmm m.pmm).setWord _ _ 0#32) slot 0) = false
    rw [hwrite, isPresent_zero]
  · exact ⟨.ofMem rfl rfl, rfl, rfl, Bool.eq_false_of_not_eq_true hpte⟩

/-- `vmm_alloc_kernel_stack` gives out a stack or takes nothing. -/
theorem vmmAllocKernelStack_exact (hd : DirectTables m) (hmax : m.pmm.maxPage ≤ pmmMaxPages)
    (hzero : m.pmm.bitmap 0 = true) :
    (∃ m' slot, vmmAllocKernelStack m = .allocated m' (kernelStackTop slot) ∧
      StackGiven m m' slot) ∨
    ∃ m', vmmAllocKernelStack m = .failed m' ∧ StackRefused m m' := by
  unfold vmmAllocKernelStack
  cases hfind : (List.range kernelStackSlots).find? fun i => !m.kstackBitmap i with
  | none => exact Or.inr ⟨m, rfl, rfl, rfl, rfl, Or.inl rfl⟩
  | some slot =>
    have hslot : slot < kernelStackSlots := List.mem_range.mp (List.mem_of_find?_eq_some hfind)
    have hclear : m.kstackBitmap slot = false := by simpa using List.find?_some hfind
    have hset : SlotWrites slot m (m.setSlot slot true) := .ofMem rfl rfl
    obtain ⟨hwrites, hpmm, hslots, hguard⟩ :=
      unmapGuard_exact (m := m.setSlot slot true) (hset.directTables hd) hslot
    dsimp only
    set m₁ := vmmUnmapPageInPd (m.setSlot slot true) m.bootPageDirectory (kernelStackBase slot)
      with hm₁
    have hpmm₁ : m₁.pmm = m.pmm := hpmm
    have hslots₁ : m₁.kstackBitmap = Function.update m.kstackBitmap slot true := hslots
    have hboth : SlotWrites slot m m₁ := hset.trans hwrites
    have hresult := mapStackPages_exact (p := 1) (hboth.directTables hd)
      (by rw [hpmm₁]; exact hmax) (by rw [hpmm₁]; exact hzero) hslot
      (fun q => by simp; omega) le_rfl (by omega) (PagesLent.start m₁ slot)
    rcases hresult with ⟨m₂, l, hres, hlent, hl⟩ | ⟨m₂, hres, hw, hbits, hlimit, hslots₂⟩
    · have hmem : ∀ q, q ∈ dataPages ↔ q ∈ l := fun q => by rw [mem_dataPages, hl]
      refine Or.inl ⟨m₂, slot, hres, hslot, hclear, hlent.slots.trans hslots₁,
        hboth.trans hlent.writes, hlent.maxPage.trans (congrArg Pmm.maxPage hpmm₁), ?_, ?_, ?_, ?_⟩
      · constructor
        · exact fun q hq => hlent.holds.entry q ((hmem q).mp hq)
        · exact fun q hq => hlent.holds.lt q ((hmem q).mp hq)
        · exact fun q hq => hlent.holds.used q ((hmem q).mp hq)
        · exact fun q hq q' hq' => hlent.holds.inj q ((hmem q).mp hq) q' ((hmem q').mp hq')
      · intro q hq
        rw [← hpmm₁]
        exact hlent.fresh q ((hmem q).mp hq)
      · intro f
        rw [hlent.bitmap f, hpmm₁]
        simp only [hmem]
      · rw [hlent.guard]
        exact hguard
    · refine Or.inr ⟨m₂, hres, ?_, by rw [hbits, hpmm₁], by rw [hlimit, hpmm₁],
        Or.inr ⟨slot, hslot, hclear, hboth.trans hw⟩⟩
      rw [hslots₂, hslots₁, Function.update_idem, ← hclear, Function.update_eq_self]

/-- `vmm_free_kernel_stack` of a stack that holds its frames. -/
theorem vmmFreeKernelStack_exact (hd : DirectTables m) (hmax : m.pmm.maxPage ≤ pmmMaxPages)
    (hslot : slot < kernelStackSlots) (h : HoldsPages m slot dataPages) :
    PagesFreed (m.setSlot slot false) (vmmFreeKernelStack m (kernelStackTop slot)) slot
      dataPages := by
  have hset : SlotWrites slot m (m.setSlot slot false) := .ofMem rfl rfl
  rw [vmmFreeKernelStack_foldl hd hslot]
  exact foldl_freeStackPage_exact (hset.directTables hd) hmax hslot (by decide) (by decide)
    (h.congr (fun _ _ => rfl) rfl h.used)

end Whole

end EnclaveOS
