import EnclaveOS.Foundation.Run
import EnclaveOS.Memory.PmmBitmap

/-!
# PmmRuns - the page allocator over whole runs

After `pmm_init` and all reservations, callers take pages, drop them and count
references on them in any order.  A ghost count records the references that the
callers hold.
-/

namespace EnclaveOS

open PageWord ByteBitmap

/-- The pages that the bitmap marks as free. -/
def Pmm.freePages (p : Pmm) : Finset Nat :=
  (Finset.range p.maxPage).filter fun f => p.bitmap f = false

theorem Pmm.mem_freePages {p : Pmm} {f : Nat} :
    f ∈ p.freePages ↔ f < p.maxPage ∧ p.bitmap f = false := by
  rw [Pmm.freePages, Finset.mem_filter, Finset.mem_range]

/-- An allocator that has not been called yet. -/
structure Pmm.Idle (p : Pmm) : Prop where
  usedPages : p.usedPages = 0
  totalAllocs : p.totalAllocs = 0
  totalFrees : p.totalFrees = 0

/-- The bitmap is capped, its clear bits are counted and no page is handed out. -/
structure Stocked (b : BytePmm) : Prop where
  capped : PmmCapped b.pmm
  idle : b.pmm.Idle
  total : b.totalAvailablePages = b.pmm.freePages.card

namespace Stocked

variable {b : BytePmm}

theorem card_le (h : Stocked b) : b.pmm.freePages.card ≤ pmmMaxPages := by
  calc b.pmm.freePages.card ≤ (Finset.range b.pmm.maxPage).card := Finset.card_filter_le _ _
    _ = b.pmm.maxPage := Finset.card_range _
    _ ≤ pmmMaxPages := h.capped.limit

theorem freePages_freeBit {i : Nat} (hi : i < b.pmmMaxPage) :
    (b.freeBit i).pmm.freePages = insert i b.pmm.freePages := by
  ext f
  have hbit : (b.freeBit i).pmm.bitmap f = if f = i then false else b.pmm.bitmap f :=
    BytePmm.freeBit_bit i f
  have hmax : (b.freeBit i).pmm.maxPage = b.pmm.maxPage := BytePmm.freeBit_maxPage i
  rw [Finset.mem_insert, Pmm.mem_freePages, Pmm.mem_freePages, hbit, hmax]
  by_cases hf : f = i
  · subst hf
    simp only [if_true, and_true, true_or, iff_true]
    exact hi
  · simp [hf]

theorem freePages_reserveBit (i : Nat) :
    (b.reserveBit i).pmm.freePages = b.pmm.freePages.erase i := by
  ext f
  have hbit : (b.reserveBit i).pmm.bitmap f = if f = i then true else b.pmm.bitmap f :=
    BytePmm.reserveBit_bit i f
  have hmax : (b.reserveBit i).pmm.maxPage = b.pmm.maxPage := BytePmm.reserveBit_maxPage i
  rw [Finset.mem_erase, Pmm.mem_freePages, Pmm.mem_freePages, hbit, hmax]
  by_cases hf : f = i
  · simp [hf]
  · simp [hf]

theorem mem_freePages_iff {i : Nat} (hi : i < b.pmmMaxPage) :
    i ∈ b.pmm.freePages ↔ bit b.pmmBitmap i = false :=
  Pmm.mem_freePages.trans (and_iff_right hi)

theorem freeBit (h : Stocked b) {i : Nat} (hi : i < b.pmmMaxPage) : Stocked (b.freeBit i) := by
  have hle := h.card_le
  unfold pmmMaxPages at hle
  refine ⟨⟨?_, fun f hf => ?_⟩, ?_, ?_⟩
  · exact (BytePmm.freeBit_maxPage i).trans_le h.capped.limit
  · replace hf : b.pmmMaxPage ≤ f := (BytePmm.freeBit_maxPage i).symm.trans_le hf
    exact (BytePmm.freeBit_bit i f).trans ((if_neg (by omega)).trans (h.capped.above f hf))
  · unfold BytePmm.freeBit
    split_ifs <;> exact ⟨h.idle.usedPages, h.idle.totalAllocs, h.idle.totalFrees⟩
  · rw [freePages_freeBit hi, BytePmm.freeBit_total, h.total]
    cases hbit : bit b.pmmBitmap i with
    | true =>
      have hmem : i ∉ b.pmm.freePages := by
        rw [mem_freePages_iff hi, hbit]
        exact Bool.noConfusion
      rw [Finset.card_insert_of_notMem hmem, if_pos rfl]
      exact Nat.mod_eq_of_lt (by omega)
    | false =>
      rw [Finset.insert_eq_of_mem ((mem_freePages_iff hi).mpr hbit), if_neg Bool.false_ne_true]

theorem reserveBit (h : Stocked b) {i : Nat} (hi : i < b.pmmMaxPage) :
    Stocked (b.reserveBit i) := by
  refine ⟨⟨?_, fun f hf => ?_⟩, ?_, ?_⟩
  · exact (BytePmm.reserveBit_maxPage i).trans_le h.capped.limit
  · replace hf : b.pmmMaxPage ≤ f := (BytePmm.reserveBit_maxPage i).symm.trans_le hf
    exact (BytePmm.reserveBit_bit i f).trans ((if_neg (by omega)).trans (h.capped.above f hf))
  · unfold BytePmm.reserveBit
    split_ifs <;> exact ⟨h.idle.usedPages, h.idle.totalAllocs, h.idle.totalFrees⟩
  · rw [freePages_reserveBit, BytePmm.reserveBit_total, h.total]
    cases hbit : bit b.pmmBitmap i with
    | false => rw [Finset.card_erase_of_mem ((mem_freePages_iff hi).mpr hbit)]; rfl
    | true =>
      have hmem : i ∉ b.pmm.freePages := by
        rw [mem_freePages_iff hi, hbit]
        exact Bool.noConfusion
      rw [Finset.erase_eq_of_notMem hmem]
      rfl

/-- A loop over pages below the limit. -/
theorem foldl {step : BytePmm → Nat → BytePmm}
    (hmax : ∀ (c : BytePmm) i, (step c i).pmmMaxPage = c.pmmMaxPage)
    (hstep : ∀ (c : BytePmm) i, Stocked c → i < c.pmmMaxPage → Stocked (step c i))
    (h : Stocked b) {l : List Nat} (hl : ∀ i ∈ l, i < b.pmmMaxPage) :
    Stocked (l.foldl step b) := by
  induction l generalizing b with
  | nil => exact h
  | cons i rest ih =>
    refine ih (hstep b i h (hl i List.mem_cons_self)) fun j hj => ?_
    rw [hmax]
    exact hl j (List.mem_cons_of_mem i hj)

theorem freeRegion (h : Stocked b) (base length : Nat) : Stocked (b.freeRegion base length) := by
  unfold BytePmm.freeRegion
  dsimp only
  split_ifs
  · exact h
  · exact h
  · refine foldl (fun c i => BytePmm.freeBit_maxPage i) (fun c i hc hi => hc.freeBit hi) h
      fun i hi => ?_
    have hmem := BytePmm.mem_pages.mp hi
    omega

theorem reserveRegion (h : Stocked b) (base stop : Nat) : Stocked (b.reserveRegion base stop) := by
  unfold BytePmm.reserveRegion
  dsimp only
  split_ifs
  · exact h
  · exact h
  · refine foldl (fun c i => BytePmm.reserveBit_maxPage i) (fun c i hc hi => hc.reserveBit hi) h
      fun i hi => ?_
    have hmem := BytePmm.mem_pages.mp hi
    omega

/-- The regions that `pmm_init` takes out of the pool. -/
def initRegions (info : BootInfo) : List (Nat × Nat) :=
  (lowerMemStart, lowerMemEnd) :: (info.kernelStart, info.kernelEnd) ::
    (info.infoRegion.toList ++ info.modules ++ [(pciMmioHoleStart, pciMmioHoleEnd)])

/-- A page that a region `[base, end)` of physical memory touches. -/
def Covers (r : Nat × Nat) (f : Nat) : Prop :=
  r.1 < r.2 ∧ r.1 < (f + 1) * pmmPageSize ∧ f * pmmPageSize < r.2

/-- Reserving a list of regions leaves no page of them free. -/
theorem foldl_reserveRegion (l : List (Nat × Nat)) (h : Stocked b) :
    Stocked (l.foldl (fun b r => b.reserveRegion r.1 r.2) b) := by
  induction l generalizing b with
  | nil => exact h
  | cons r rest ih => exact ih (h.reserveRegion r.1 r.2)

/-- `pmm_init` is a stock of free regions, less the regions it reserves. -/
theorem init_eq (info : BootInfo) : ∃ b, Stocked b ∧
    BytePmm.init info = (initRegions info).foldl (fun b r => b.reserveRegion r.1 r.2) b := by
  have hclean : ∀ n ≤ pmmMaxPages, Stocked ⟨fun _ => 0xFF#8, fun _ => 0, 0, 0, n, 0, 0⟩ := by
    intro n hn
    refine ⟨⟨hn, fun f _ => BytePmm.bit_full f⟩, ⟨rfl, rfl, rfl⟩,
      (Finset.card_eq_zero.mpr ?_).symm⟩
    refine Finset.filter_eq_empty_iff.mpr fun f _ hf => ?_
    exact Bool.false_ne_true (hf.symm.trans (BytePmm.bit_full f))
  have hmap : ∀ (map : List E820Entry) (b : BytePmm), Stocked b →
      Stocked (map.foldl (fun b e => if e.type = multibootMemoryAvailable then
        b.freeRegion e.addr e.len else b) b) := by
    intro map
    induction map with
    | nil => exact fun b hb => hb
    | cons e rest ih =>
      intro b hb
      rw [List.foldl_cons]
      split_ifs
      · exact ih _ (hb.freeRegion _ _)
      · exact ih _ hb
  obtain ⟨map, region, modules, kernelStart, kernelEnd⟩ := info
  generalize hg : BytePmm.init _ = g
  unfold BytePmm.init at hg
  extract_lets clean freed low kernel block mods at hg
  have hblock : block = region.toList.foldl (fun b r => b.reserveRegion r.1 r.2) kernel := by
    cases region <;> rfl
  -- A machine whose pages all lie below the hole has nothing to reserve there.
  have hhole : g = mods.reserveRegion pciMmioHoleStart pciMmioHoleEnd := by
    rw [← hg]
    by_cases hlimit : pciMmioHoleStart / pmmPageSize < mods.pmmMaxPage
    · exact if_pos hlimit
    · rw [if_neg hlimit]
      unfold BytePmm.reserveRegion
      rw [if_neg (by decide)]
      exact (if_pos (Nat.not_lt.mp hlimit)).symm
  refine ⟨freed, ?_, ?_⟩
  · cases map with
    | none => exact (hclean _ (by decide)).freeRegion _ _
    | some map => exact hmap map _ (hclean _ (min_le_right _ _))
  · rw [hhole, initRegions, List.foldl_cons, List.foldl_cons, List.foldl_append,
      List.foldl_append, ← hblock]
    rfl

/-- The pages of the regions are out of the stock. -/
theorem reserved (h : Stocked b) {l : List (Nat × Nat)} {r : Nat × Nat} (hr : r ∈ l)
    (hfit : r.2 + pmmPageSize ≤ 2 ^ 44) {f : Nat} (hf : Covers r f) :
    bit (l.foldl (fun b r => b.reserveRegion r.1 r.2) b).pmmBitmap f = true := by
  have hpmm := BytePmm.foldl_reserveRegion_pmm (b := b) l
  have hset := (foldl_reserve_spec l h.capped (f := f)).2 (Or.inr ⟨r, hr, hfit, hf⟩)
  rw [← hpmm] at hset
  exact hset

end Stocked

/-- The allocator after `pmm_init` and the reservations that follow it. -/
def pmmReserved (info : BootInfo) (regions : List (Nat × Nat)) : BytePmm :=
  regions.foldl (fun b r => b.reserveRegion r.1 r.2) (BytePmm.init info)

theorem pmmReserved_spec (info : BootInfo) (regions : List (Nat × Nat)) :
    Stocked (pmmReserved info regions) ∧
      ∀ r ∈ Stocked.initRegions info ++ regions, r.2 + pmmPageSize ≤ 2 ^ 44 →
        ∀ f, Stocked.Covers r f → bit (pmmReserved info regions).pmmBitmap f = true := by
  obtain ⟨b, hb, hinit⟩ := Stocked.init_eq info
  unfold pmmReserved
  rw [hinit, ← List.foldl_append]
  exact ⟨Stocked.foldl_reserveRegion _ hb, fun r hr hfit f hf => hb.reserved hr hfit hf⟩

/-- References that callers hold, against the start `p₀` and the allocator
`p` now. -/
structure Issued (p₀ p : Pmm) (refs : Nat → Nat) : Prop where
  maxPage : p.maxPage = p₀.maxPage
  total : p.totalAvailablePages = p₀.totalAvailablePages
  held : ∀ f, 0 < refs f → f ∈ p₀.freePages
  bound : ∀ f, refs f ≤ 0xFFFF
  bitmap : ∀ f, p.bitmap f = (p₀.bitmap f || decide (0 < refs f))
  counted : ∀ f, 0 < refs f → p.refcounts f = refs f
  used : p.usedPages = (p₀.freePages.filter fun f => 0 < refs f).card
  balance : p.totalAllocs % 4294967296 = (p.totalFrees + p.usedPages) % 4294967296

namespace Issued

variable {p₀ p : Pmm} {refs : Nat → Nat} {f n : Nat}

/-- Nobody holds a page before the first call. -/
theorem start {b : BytePmm} (h : Stocked b) : Issued b.pmm b.pmm fun _ => 0 where
  maxPage := rfl
  total := rfl
  held f hf := absurd hf (Nat.lt_irrefl 0)
  bound f := Nat.zero_le _
  bitmap f := by simp
  counted f hf := absurd hf (Nat.lt_irrefl 0)
  used := by simp [h.idle.usedPages]
  balance := by rw [h.idle.totalAllocs, h.idle.totalFrees, h.idle.usedPages]

theorem bit_held (h : Issued p₀ p refs) (hf : 0 < refs f) : p.bitmap f = true := by
  rw [h.bitmap, decide_eq_true hf, Bool.or_true]

/-- The pool is what was free at the start and nobody holds. -/
theorem freePages_eq (h : Issued p₀ p refs) :
    p.freePages = p₀.freePages.filter fun f => ¬0 < refs f := by
  ext f
  rw [Finset.mem_filter, Pmm.mem_freePages, Pmm.mem_freePages, h.maxPage, h.bitmap]
  simp only [Bool.or_eq_false_iff, decide_eq_false_iff_not]
  exact and_assoc.symm

theorem free_add_used (h : Issued p₀ p refs) :
    p.freePages.card + p.usedPages = p₀.freePages.card := by
  rw [h.freePages_eq, h.used, Nat.add_comm]
  exact Finset.card_filter_add_card_filter_not _

/-- The held pages after the count of one page changes. -/
theorem held_update (hf : f ∈ p₀.freePages) :
    (p₀.freePages.filter fun g => 0 < Function.update refs f n g) =
      if 0 < n then insert f (p₀.freePages.filter fun g => 0 < refs g)
      else (p₀.freePages.filter fun g => 0 < refs g).erase f := by
  ext g
  by_cases hg : g = f
  · subst hg
    split_ifs with hn <;> simp [hf, hn]
  · split_ifs <;> simp [hg]

/-- A call that touches one page of the pool leaves the other pages their entries. -/
theorem update {p' : Pmm} (h : Issued p₀ p refs) (hstock : f ∈ p₀.freePages) (hbound : n ≤ 0xFFFF)
    (hmax : p'.maxPage = p.maxPage) (htotal : p'.totalAvailablePages = p.totalAvailablePages)
    (hbit : p'.bitmap = Function.update p.bitmap f (decide (0 < n)))
    (hcount : p'.refcounts = Function.update p.refcounts f n)
    (hused : p'.usedPages = (p₀.freePages.filter fun g => 0 < Function.update refs f n g).card)
    (hbalance : p'.totalAllocs % 4294967296 = (p'.totalFrees + p'.usedPages) % 4294967296) :
    Issued p₀ p' (Function.update refs f n) := by
  refine ⟨hmax.trans h.maxPage, htotal.trans h.total, ?_, ?_, ?_, ?_, hused, hbalance⟩
  · intro g hg
    by_cases hgf : g = f
    · exact hgf ▸ hstock
    · rw [Function.update_of_ne hgf] at hg
      exact h.held g hg
  · intro g
    by_cases hgf : g = f
    · simp [hgf, hbound]
    · rw [Function.update_of_ne hgf]
      exact h.bound g
  · intro g
    rw [hbit]
    by_cases hgf : g = f
    · subst hgf
      simp [(Pmm.mem_freePages.mp hstock).2]
    · rw [Function.update_of_ne hgf, Function.update_of_ne hgf]
      exact h.bitmap g
  · intro g hg
    rw [hcount]
    by_cases hgf : g = f
    · simp [hgf]
    · rw [Function.update_of_ne hgf] at hg ⊢
      rw [Function.update_of_ne hgf]
      exact h.counted g hg

/-- Taking a page of the pool. -/
theorem take (h : Issued p₀ p refs) (hsmall : p₀.freePages.card ≤ pmmMaxPages)
    (hf : f ∈ p.freePages) : Issued p₀ (p.take f) (Function.update refs f 1) := by
  rw [h.freePages_eq, Finset.mem_filter] at hf
  obtain ⟨hstock, hfree⟩ := hf
  have hcount : (p₀.freePages.filter fun g => 0 < Function.update refs f 1 g).card =
      p.usedPages + 1 := by
    rw [held_update hstock, if_pos Nat.one_pos, h.used]
    exact Finset.card_insert_of_notMem fun hmem => hfree (Finset.mem_filter.mp hmem).2
  have hused : wrap32 (p.usedPages + 1) = p.usedPages + 1 := by
    have hle := Finset.card_filter_le p₀.freePages fun g => 0 < Function.update refs f 1 g
    unfold pmmMaxPages at hsmall
    exact Nat.mod_eq_of_lt (by omega)
  refine h.update hstock (by decide) rfl rfl rfl rfl (hused.trans hcount.symm) ?_
  have hbalance := h.balance
  change wrap32 (p.totalAllocs + 1) % 4294967296 =
    (p.totalFrees + wrap32 (p.usedPages + 1)) % 4294967296
  rw [hused]
  unfold wrap32
  omega

/-- Dropping a page altogether. -/
theorem release (h : Issued p₀ p refs) (hf : 0 < refs f) :
    Issued p₀ (p.release f) (Function.update refs f 0) := by
  have hstock := h.held f hf
  have hmem : f ∈ p₀.freePages.filter fun g => 0 < refs g := Finset.mem_filter.mpr ⟨hstock, hf⟩
  have hpos : 0 < p.usedPages := by
    rw [h.used]
    exact Finset.card_pos.mpr ⟨f, hmem⟩
  have hcount : (p₀.freePages.filter fun g => 0 < Function.update refs f 0 g).card =
      p.usedPages - 1 := by
    rw [held_update hstock, if_neg (Nat.lt_irrefl 0), h.used]
    exact Finset.card_erase_of_mem hmem
  refine h.update hstock (Nat.zero_le _) rfl rfl rfl rfl hcount.symm ?_
  have hbalance := h.balance
  change p.totalAllocs % 4294967296 = (wrap32 (p.totalFrees + 1) + (p.usedPages - 1)) % 4294967296
  unfold wrap32
  omega

/-- Changing the count of a page that stays held. -/
theorem setRef (h : Issued p₀ p refs) (hf : 0 < refs f) (hn : 0 < n) (hbound : n ≤ 0xFFFF) :
    Issued p₀ (p.setRef f n) (Function.update refs f n) := by
  have hstock := h.held f hf
  have hmem : f ∈ p₀.freePages.filter fun g => 0 < refs g := Finset.mem_filter.mpr ⟨hstock, hf⟩
  refine h.update hstock hbound rfl rfl ?_ rfl ?_ h.balance
  · rw [decide_eq_true hn, ← h.bit_held hf]
    exact (Function.update_eq_self f p.bitmap).symm
  · rw [held_update hstock, if_pos hn, Finset.insert_eq_of_mem hmem]
    exact h.used

end Issued

/-- The allocator, and the references that its callers hold on each page. -/
structure PmmRun where
  bits : BytePmm
  refs : Nat → Nat

/-- A call of the allocator; pages are given by their number. -/
inductive PmmOp
  | allocPage
  | freePage (f : Nat)
  | incRef (f : Nat)
  | decRef (f : Nat)

namespace PmmRun

/-- One call. -/
def step (s : PmmRun) : PmmOp → PmmRun
  | .allocPage =>
    let (bits, physAddr) := s.bits.allocPage
    if physAddr = 0#32 then { s with bits }
    else ⟨bits, Function.update s.refs (frameOf physAddr) 1⟩
  | .freePage f => ⟨s.bits.freePage (frameAddr f), Function.update s.refs f 0⟩
  | .incRef f => ⟨s.bits.incRef (frameAddr f), Function.update s.refs f (s.refs f + 1)⟩
  | .decRef f => ⟨s.bits.decRef (frameAddr f), Function.update s.refs f (s.refs f - 1)⟩

/-- Calls that callers may make: on pages handed out, with a reference to drop, and
with fewer than 65535 references to raise. -/
def Offered (s : PmmRun) : PmmOp → Prop
  | .allocPage => True
  | .freePage f => 0 < s.refs f
  | .incRef f => 0 < s.refs f ∧ s.refs f < 0xFFFF
  | .decRef f => 0 < s.refs f

/-- The start of a run. -/
def start (info : BootInfo) (regions : List (Nat × Nat)) : PmmRun :=
  ⟨pmmReserved info regions, fun _ => 0⟩

end PmmRun

/-- A word that holds a free page ends the search. -/
theorem scanBitmapWords_complete {p : Pmm} (hcap : PmmCapped p) {ws : List Nat} {f : Nat}
    (hf : p.bitmap f = false) (hw : f / 32 ∈ ws) : ∃ g, scanBitmapWords p ws = some g := by
  induction ws with
  | nil => cases hw
  | cons w rest ih =>
    rw [scanBitmapWords]
    cases hlow : lowestFreeBit p w with
    | none =>
      -- All bits of this word are set, so the page lies in a later one.
      have hne : f / 32 ≠ w := by
        rintro rfl
        have hset := List.find?_eq_none.mp hlow (f % 32)
          (List.mem_range.mpr (Nat.mod_lt _ (by decide)))
        rw [Nat.div_add_mod, hf] at hset
        exact hset rfl
      exact ih ((List.mem_cons.mp hw).resolve_left hne)
    | some place =>
      have hclear : p.bitmap (32 * w + place) = false := by
        unfold lowestFreeBit at hlow
        simpa using List.find?_some hlow
      have hlimit : ¬p.maxPage ≤ 32 * w + place := by
        intro hge
        rw [hcap.above _ hge] at hclear
        exact Bool.noConfusion hclear
      exact ⟨_, if_neg hlimit⟩

/-- `pmm_alloc_page` returns 0 exactly when no page is free. -/
theorem pmmAllocPage_zero_iff {p : Pmm} (hcap : PmmCapped p) (hzero : p.bitmap 0 = true) :
    (pmmAllocPage p).2 = 0#32 ↔ p.freePages = ∅ := by
  unfold pmmAllocPage
  constructor
  · intro hnone
    refine Finset.eq_empty_of_forall_notMem fun f hf => ?_
    obtain ⟨hlimit, hfree⟩ := Pmm.mem_freePages.mp hf
    have hword : f / 32 ∈ List.range ((p.maxPage + 31) / 32) := List.mem_range.mpr (by omega)
    obtain ⟨g, hg⟩ := scanBitmapWords_complete hcap hfree hword
    have hfound := scanBitmapWords_some hg
    have hbound := hcap.limit
    rw [hg] at hnone
    unfold pmmMaxPages at hbound
    have hg0 : g = 0 := (frameAddr_eq_zero_iff (by omega)).mp hnone
    rw [hg0, hzero] at hfound
    exact Bool.noConfusion hfound.1
  · intro hempty
    cases hscan : scanBitmapWords p (List.range ((p.maxPage + 31) / 32)) with
    | none => rfl
    | some g =>
      have hfound := scanBitmapWords_some hscan
      have hmem : g ∈ p.freePages := Pmm.mem_freePages.mpr ⟨hfound.2, hfound.1⟩
      rw [hempty] at hmem
      exact absurd hmem (Finset.notMem_empty g)

namespace Issued

variable {b₀ : BytePmm} {s : PmmRun}

theorem capped {p₀ p : Pmm} {refs : Nat → Nat} (h : Issued p₀ p refs) (hcap : PmmCapped p₀) :
    PmmCapped p := by
  refine ⟨h.maxPage ▸ hcap.limit, fun f hf => ?_⟩
  rw [h.bitmap, hcap.above f (h.maxPage ▸ hf)]
  rfl

/-- A page that callers hold lies below the limit of the frame numbers. -/
theorem held_lt {p₀ p : Pmm} {refs : Nat → Nat} (h : Issued p₀ p refs) (hcap : PmmCapped p₀)
    {f : Nat} (hf : 0 < refs f) : f < p.maxPage ∧ f < pmmMaxPages := by
  have hlt := (Pmm.mem_freePages.mp (h.held f hf)).1
  exact ⟨h.maxPage ▸ hlt, Nat.lt_of_lt_of_le hlt hcap.limit⟩

/-- The drop of the last reference gives the page back, any other lowers its count. -/
theorem decRef_held {p₀ p : Pmm} {refs : Nat → Nat} (h : Issued p₀ p refs) (hcap : PmmCapped p₀)
    {f : Nat} (hf : 0 < refs f) :
    pmmDecRef p (frameAddr f) = if refs f = 1 then p.release f else p.setRef f (refs f - 1) := by
  obtain ⟨hlimit, hlt⟩ := h.held_lt hcap hf
  have hcounted := h.counted f hf
  rw [pmmDecRef_frameAddr _ hlt hlimit (hcounted ▸ hf) (h.bit_held hf), hcounted]
  congr 1
  unfold Pmm.release Pmm.setRef
  simp

/-- Every call keeps the books. -/
theorem step (hb : Stocked b₀) (hzero : b₀.pmm.bitmap 0 = true) (h : Issued b₀.pmm s.bits.pmm s.refs)
    {op : PmmOp} (hop : s.Offered op) :
    Issued b₀.pmm (s.step op).bits.pmm (s.step op).refs := by
  have hcap := h.capped hb.capped
  have hzero' : s.bits.pmm.bitmap 0 = true := by
    rw [h.bitmap, hzero]
    rfl
  cases op with
  | allocPage =>
    obtain ⟨hpmm, haddr⟩ := BytePmm.allocPage_pmm (b := s.bits)
    unfold PmmRun.step
    dsimp only
    rcases pmmAllocPage_cases s.bits.pmm with hnone | ⟨f, hfree, hlimit, htake⟩
    · rw [hnone] at hpmm haddr
      rw [if_pos haddr]
      dsimp only
      rw [hpmm]
      exact h
    · rw [htake] at hpmm haddr
      have hmax := hcap.limit
      unfold pmmMaxPages at hmax
      have hlt : f < 1048576 := by omega
      have hne : frameAddr f ≠ 0#32 := by
        intro hf
        rw [(frameAddr_eq_zero_iff hlt).mp hf, hzero'] at hfree
        exact Bool.noConfusion hfree
      rw [haddr, if_neg hne, frameOf_frameAddr hlt]
      dsimp only
      rw [hpmm]
      exact h.take hb.card_le (Pmm.mem_freePages.mpr ⟨hlimit, hfree⟩)
  | freePage f =>
    obtain ⟨hlimit, hlt⟩ := h.held_lt hb.capped hop
    unfold PmmRun.step
    dsimp only
    rw [BytePmm.freePage_pmm, pmmFreePage_frameAddr _ hlt, if_pos ⟨hlimit, h.bit_held hop⟩]
    exact h.release hop
  | incRef f =>
    obtain ⟨hheld, hbelow⟩ := hop
    obtain ⟨hlimit, hlt⟩ := h.held_lt hb.capped hheld
    unfold PmmRun.step
    dsimp only
    rw [BytePmm.incRef_pmm, pmmIncRef_frameAddr _ hlt, h.counted f hheld, if_pos ⟨hlimit, hbelow⟩]
    exact h.setRef hheld (Nat.succ_pos _) hbelow
  | decRef f =>
    obtain ⟨hlimit, hlt⟩ := h.held_lt hb.capped hop
    have hbound := h.bound f
    unfold PmmRun.step
    dsimp only
    rw [BytePmm.decRef_pmm, decRef_held h hb.capped hop]
    by_cases hone : s.refs f = 1
    · rw [if_pos hone, hone]
      exact h.release hop
    · rw [if_neg hone]
      replace hop : 0 < s.refs f := hop
      exact h.setRef hop (by omega) (by omega)

end Issued

/-- The allocator over every run: it hands out a page exactly when one is free, and then
a page that is free, was never reserved and is held by nobody; the last drop of a page
and no other gives it back; the two counters are exact. -/
theorem pmm_contract (info : BootInfo) (regions : List (Nat × Nat)) {s : PmmRun}
    (h : Reach (fun s op => some (s.step op)) PmmRun.Offered (PmmRun.start info regions) s) :
    (s.bits.allocPage.2 ≠ 0#32 ↔
      ∃ f < s.bits.pmmMaxPage, testBit s.bits.pmmBitmap f = false) ∧
    (s.bits.allocPage.2 ≠ 0#32 → ∃ f < s.bits.pmmMaxPage,
      s.bits.allocPage.2 = frameAddr f ∧ testBit s.bits.pmmBitmap f = false ∧ s.refs f = 0 ∧
      (∀ r ∈ Stocked.initRegions info ++ regions, r.2 + pmmPageSize ≤ 2 ^ 44 →
        ¬Stocked.Covers r f) ∧
      testBit s.bits.allocPage.1.pmmBitmap f = true ∧
      s.bits.allocPage.1.pmmRefcounts f = 1) ∧
    (∀ f, 0 < s.refs f → testBit s.bits.pmmBitmap f = true ∧
      s.bits.pmmRefcounts f = s.refs f ∧
      (testBit (s.bits.decRef (frameAddr f)).pmmBitmap f = false ↔ s.refs f = 1)) ∧
    s.bits.getFreePages =
      ((Finset.range s.bits.pmmMaxPage).filter fun f =>
        testBit s.bits.pmmBitmap f = false).card ∧
    s.bits.checkBalance = s.bits.usedPages := by
  obtain ⟨hstock, hreserved⟩ := pmmReserved_spec info regions
  have hzero : (pmmReserved info regions).pmm.bitmap 0 = true :=
    hreserved (lowerMemStart, lowerMemEnd) (List.mem_append_left _ List.mem_cons_self)
      (by decide) 0 ⟨by decide, by decide, by decide⟩
  have hinv : Issued (pmmReserved info regions).pmm s.bits.pmm s.refs := by
    refine Reach.invariant (P := fun s => Issued (pmmReserved info regions).pmm s.bits.pmm s.refs)
      (Issued.start hstock) (fun s op s' hs hop hstep => ?_) h
    cases hstep
    exact hs.step hstock hzero hop
  have hcap := hinv.capped hstock.capped
  have hzero' : s.bits.pmm.bitmap 0 = true := by
    rw [hinv.bitmap, hzero]
    rfl
  obtain ⟨hpmm, haddr⟩ := BytePmm.allocPage_pmm (b := s.bits)
  have hsmall := hstock.card_le
  have hsum := hinv.free_add_used
  have htotal : s.bits.totalAvailablePages = (pmmReserved info regions).pmm.freePages.card :=
    hinv.total.trans hstock.total
  unfold pmmMaxPages at hsmall
  simp only [testBit_eq]
  refine ⟨?_, ?_, ?_, ?_, ?_⟩
  · rw [haddr, ne_eq, pmmAllocPage_zero_iff hcap hzero', ← ne_eq, ← Finset.nonempty_iff_ne_empty]
    constructor
    · rintro ⟨f, hf⟩
      exact ⟨f, Pmm.mem_freePages.mp hf⟩
    · rintro ⟨f, hf⟩
      exact ⟨f, Pmm.mem_freePages.mpr hf⟩
  · intro hne
    rcases pmmAllocPage_cases s.bits.pmm with hnone | ⟨f, hfree, hlimit, htake⟩
    · rw [haddr, hnone] at hne
      exact absurd rfl hne
    · rw [htake] at hpmm haddr
      have hnew := hfree
      rw [hinv.bitmap, Bool.or_eq_false_iff, decide_eq_false_iff_not] at hnew
      refine ⟨f, hlimit, haddr, hfree, Nat.eq_zero_of_not_pos hnew.2, fun r hr hfit hf => ?_,
        ?_, ?_⟩
      · exact Bool.false_ne_true (hnew.1.symm.trans (hreserved r hr hfit f hf))
      · have hbit : s.bits.allocPage.1.pmm.bitmap f = true := by
          rw [hpmm]
          rw [Pmm.take_bitmap, Function.update_self]
        exact hbit
      · have hcount : s.bits.allocPage.1.pmm.refcounts f = 1 := by
          rw [hpmm]
          rw [Pmm.take_refcounts, Function.update_self]
        exact hcount
  · intro f hf
    refine ⟨hinv.bit_held hf, hinv.counted f hf, ?_⟩
    have hdec := congrArg (fun p => p.bitmap f) (BytePmm.decRef_pmm (b := s.bits) (frameAddr f))
    rw [hinv.decRef_held hstock.capped hf] at hdec
    change bit (s.bits.decRef (frameAddr f)).pmmBitmap f = _ at hdec
    rw [hdec]
    by_cases hone : s.refs f = 1
    · simp [hone]
    · simp [hone, hinv.bit_held hf]
  · change s.bits.getFreePages = s.bits.pmm.freePages.card
    have hused : s.bits.pmm.usedPages = s.bits.usedPages := rfl
    unfold BytePmm.getFreePages wrap32
    omega
  · have hbalance : s.bits.pmmTotalAllocs % 4294967296 =
        (s.bits.pmmTotalFrees + s.bits.usedPages) % 4294967296 := hinv.balance
    have hused : s.bits.pmm.usedPages = s.bits.usedPages := rfl
    unfold BytePmm.checkBalance
    have hsub : BitVec.ofNat 32 s.bits.pmmTotalAllocs - BitVec.ofNat 32 s.bits.pmmTotalFrees =
        BitVec.ofNat 32 s.bits.usedPages := by
      apply BitVec.eq_of_toNat_eq
      simp only [BitVec.toNat_sub, BitVec.toNat_ofNat]
      omega
    rw [hsub, BitVec.toInt_eq_toNat_of_lt (by rw [BitVec.toNat_ofNat]; omega), BitVec.toNat_ofNat]
    omega

/-- Two pages of memory above the first megabyte. -/
def twoPages : BootInfo := ⟨some [⟨0x100000, 0x2000, 1⟩], none, [], 0x100000, 0x100000⟩

/-- The first allocation of a machine with two pages. -/
theorem pmm_contract_two_pages :
    ((PmmRun.start twoPages []).step .allocPage).bits.checkBalance =
      ((PmmRun.start twoPages []).step .allocPage).bits.usedPages :=
  (pmm_contract twoPages []
    (Reach.next (i := .allocPage) .start trivial rfl)).2.2.2.2

end EnclaveOS
