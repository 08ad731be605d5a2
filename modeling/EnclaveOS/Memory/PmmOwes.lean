import EnclaveOS.Foundation.RefPool
import EnclaveOS.Memory.PmmRuns
import Mathlib.Data.BitVec

/-!
# PmmOwes - pages handed out since an earlier state

The allocator as a pool of pages with reference counts.  Against an earlier state it owes a
list of references: the pages taken since, and the references added to pages in use.  Every
call of `pmm.c` changes the list by one entry, and an allocator that owes nothing has
its bitmap, its reference counts and its books of that earlier state.
-/

namespace EnclaveOS

open PageWord

/-- `pmm_check_balance`. -/
def pmmCheckBalance (p : Pmm) : Int :=
  (BitVec.ofNat 32 p.totalAllocs - BitVec.ofNat 32 p.totalFrees).toInt

namespace Pmm

variable {p₀ p : Pmm} {l l' : List Nat} {f n : Nat}

/-- The pages in use and their references. -/
def pool (p : Pmm) : RefPool Nat :=
  ⟨p.bitmap, p.refcounts⟩

@[simp] theorem pool_take (p : Pmm) (f : Nat) : (p.take f).pool = p.pool.take f := rfl

/-- What holds of the allocator between its calls. -/
structure Sound (p : Pmm) : Prop where
  limit : p.maxPage ≤ pmmMaxPages
  zeroBit : p.bitmap 0 = true
  idle : p.pool.Idle
  used : p.usedPages + p.freePages.card ≤ pmmMaxPages

/-- The references `l` are handed out since `p₀`. -/
structure Owes (p₀ p : Pmm) (l : List Nat) : Prop where
  lent : p₀.pool.Lent p.pool l
  maxPage : p.maxPage = p₀.maxPage
  available : p.totalAvailablePages = p₀.totalAvailablePages
  below : ∀ f ∈ l, f < p₀.maxPage
  live : ∀ f ∈ l, p₀.bitmap f = true → 0 < p₀.refcounts f
  pages : p.usedPages + p.freePages.card = p₀.usedPages + p₀.freePages.card
  balance : (p.totalAllocs + p₀.totalFrees + p₀.usedPages) % 4294967296 =
    (p.totalFrees + p₀.totalAllocs + p.usedPages) % 4294967296

/-- The allocator is as it was, but for the two counters that grow together. -/
structure Restored (p₀ p : Pmm) : Prop where
  bitmap : p.bitmap = p₀.bitmap
  refcounts : p.refcounts = p₀.refcounts
  maxPage : p.maxPage = p₀.maxPage
  available : p.totalAvailablePages = p₀.totalAvailablePages
  usedPages : p.usedPages = p₀.usedPages
  balance : pmmCheckBalance p = pmmCheckBalance p₀

theorem freePages_take (p : Pmm) (f : Nat) : (p.take f).freePages = p.freePages.erase f := by
  ext g
  by_cases hg : g = f
  · simp [Pmm.mem_freePages, hg]
  · simp [Pmm.mem_freePages, hg]

theorem freePages_release (hf : f < p.maxPage) :
    (p.release f).freePages = insert f p.freePages := by
  ext g
  by_cases hg : g = f
  · simp [Pmm.mem_freePages, hg, hf]
  · simp [Pmm.mem_freePages, hg]

namespace Owes

theorem refl (p : Pmm) : Owes p p [] where
  lent := .refl _
  maxPage := rfl
  available := rfl
  below f hf := absurd hf List.not_mem_nil
  live f hf := absurd hf List.not_mem_nil
  pages := rfl
  balance := by rw [Nat.add_comm p.totalAllocs]

theorem perm (h : Owes p₀ p l) (hl : l.Perm l') : Owes p₀ p l' where
  lent := h.lent.perm hl
  maxPage := h.maxPage
  available := h.available
  below f hf := h.below f (hl.mem_iff.mpr hf)
  live f hf := h.live f (hl.mem_iff.mpr hf)
  pages := h.pages
  balance := h.balance

theorem bit_set (h : Owes p₀ p l) (hf : f ∈ l) : p.bitmap f = true :=
  h.lent.used_of_mem hf

theorem count (h : Owes p₀ p l) (f : Nat) : p.refcounts f = p₀.refcounts f + l.count f :=
  h.lent.count f

theorem fresh (h : Owes p₀ p l) (hf : p.bitmap f = false) : p₀.bitmap f = false ∧ f ∉ l :=
  h.lent.fresh hf

/-- A page that was free before has as many references as are handed out. -/
theorem count_fresh (h : Owes p₀ p l) (hp : p₀.Sound) (hf : p₀.bitmap f = false) :
    p.refcounts f = l.count f := by
  rw [h.count f, show p₀.refcounts f = 0 from hp.idle f hf, Nat.zero_add]

/-- Sound allocators stay sound. -/
theorem sound (h : Owes p₀ p l) (hp : p₀.Sound) : p.Sound where
  limit := h.maxPage.trans_le hp.limit
  zeroBit := (h.lent.used 0).mpr (Or.inl hp.zeroBit)
  idle := h.lent.idle hp.idle
  used := h.pages.trans_le hp.used

/-- Nothing is owed. -/
theorem restored (h : Owes p₀ p []) : Restored p₀ p := by
  have hpool := h.lent.eq
  have hbitmap : p.bitmap = p₀.bitmap := congrArg RefPool.used hpool
  have hfree : p.freePages = p₀.freePages := by
    ext f
    rw [Pmm.mem_freePages, Pmm.mem_freePages, h.maxPage, hbitmap]
  have hused : p.usedPages = p₀.usedPages := by
    have hpages := h.pages
    rw [hfree] at hpages
    omega
  refine ⟨hbitmap, congrArg RefPool.count hpool, h.maxPage, h.available, hused, ?_⟩
  unfold pmmCheckBalance
  congr 1
  rw [sub_eq_sub_iff_add_eq_add, ← BitVec.ofNat_add, ← BitVec.ofNat_add]
  apply BitVec.eq_of_toNat_eq
  have hbalance := h.balance
  rw [BitVec.toNat_ofNat, BitVec.toNat_ofNat]
  omega

/-- `pmm_alloc_page` takes a free page. -/
theorem take (h : Owes p₀ p l) (hp : p₀.Sound) (hf : p.bitmap f = false) (hlimit : f < p.maxPage) :
    Owes p₀ (p.take f) (f :: l) := by
  obtain ⟨hfresh, -⟩ := h.fresh hf
  have hmem : f ∈ p.freePages := Pmm.mem_freePages.mpr ⟨hlimit, hf⟩
  have hcard : (p.take f).freePages.card + 1 = p.freePages.card := by
    rw [freePages_take, Finset.card_erase_add_one hmem]
  have hused : (p.take f).usedPages = p.usedPages + 1 := by
    have hbound := hp.used
    have hpages := h.pages
    unfold pmmMaxPages at hbound
    exact Nat.mod_eq_of_lt (by omega)
  refine ⟨h.lent.take hp.idle hf, h.maxPage, h.available, ?_, ?_, ?_, ?_⟩
  · intro g hg
    cases hg with
    | head => exact h.maxPage ▸ hlimit
    | tail _ hg => exact h.below g hg
  · intro g hg hbit
    cases hg with
    | head => exact absurd hbit (by simp [hfresh])
    | tail _ hg => exact h.live g hg hbit
  · have hpages := h.pages
    omega
  · have hbalance := h.balance
    have hallocs : (p.take f).totalAllocs = (p.totalAllocs + 1) % 4294967296 := rfl
    have hfrees : (p.take f).totalFrees = p.totalFrees := rfl
    rw [hallocs, hfrees, hused]
    omega

/-- A change of the counts alone. -/
theorem setRef (h : Owes p₀ p l) (hlent : p₀.pool.Lent (p.setRef f n).pool l')
    (hmem : ∀ g ∈ l', g < p₀.maxPage ∧ (p₀.bitmap g = true → 0 < p₀.refcounts g)) :
    Owes p₀ (p.setRef f n) l' where
  lent := hlent
  maxPage := h.maxPage
  available := h.available
  below g hg := (hmem g hg).1
  live g hg := (hmem g hg).2
  pages := h.pages
  balance := h.balance

/-- `pmm_inc_ref` on a page in use. -/
theorem incRef (h : Owes p₀ p l) (hp : p₀.Sound) (hlimit : f < p.maxPage)
    (hbit : p.bitmap f = true) (hroom : p.refcounts f < 0xFFFF)
    (hlive : p₀.bitmap f = true → 0 < p₀.refcounts f) :
    Owes p₀ (pmmIncRef p (frameAddr f)) (f :: l) := by
  have hmax : f < pmmMaxPages := lt_of_lt_of_le hlimit (h.maxPage.trans_le hp.limit)
  rw [pmmIncRef_frameAddr p hmax, if_pos ⟨hlimit, hroom⟩]
  apply h.setRef (h.lent.share hbit)
  intro g hg
  cases hg with
  | head => exact ⟨h.maxPage ▸ hlimit, hlive⟩
  | tail _ hg => exact ⟨h.below g hg, h.live g hg⟩

/-- A page that goes back was handed out, so the count of used pages is not zero. -/
theorem usedPages_pos (h : Owes p₀ p l) (hlimit : f < p₀.maxPage) (hbit : p.bitmap f = true)
    (hfree : p₀.bitmap f = false) : 0 < p.usedPages := by
  have hsub : insert f p.freePages ⊆ p₀.freePages := by
    intro g hg
    cases Finset.mem_insert.mp hg with
    | inl hgf => exact Pmm.mem_freePages.mpr ⟨hgf ▸ hlimit, hgf ▸ hfree⟩
    | inr hg =>
      obtain ⟨hgmax, hgfree⟩ := Pmm.mem_freePages.mp hg
      exact Pmm.mem_freePages.mpr ⟨h.maxPage ▸ hgmax, (h.fresh hgfree).1⟩
  have hnot : f ∉ p.freePages := fun hf => by simp [(Pmm.mem_freePages.mp hf).2] at hbit
  have hcard := Finset.card_le_card hsub
  rw [Finset.card_insert_of_notMem hnot] at hcard
  have hpages := h.pages
  omega

/-- The last reference of a page is dropped. -/
theorem release (h : Owes p₀ p (f :: l)) (hp : p₀.Sound) (hone : p.refcounts f = 1) :
    Owes p₀ (p.release f) l := by
  have hlimit := h.below f List.mem_cons_self
  have hbit := h.bit_set List.mem_cons_self
  have hdrop := h.lent.drop hp.idle (h.live f List.mem_cons_self)
  have hpool : p.pool.drop f = (p.release f).pool := if_pos hone
  rw [hpool] at hdrop
  have hfree : p₀.bitmap f = false := by
    have hcleared : (p.release f).pool.used f = false := Function.update_self _ _ _
    exact (hdrop.fresh hcleared).1
  have hcard : (p.release f).freePages.card = p.freePages.card + 1 := by
    rw [freePages_release (h.maxPage ▸ hlimit), Finset.card_insert_of_notMem]
    intro hf
    simp [(Pmm.mem_freePages.mp hf).2] at hbit
  have hpos := h.usedPages_pos hlimit hbit hfree
  have hused : (p.release f).usedPages = p.usedPages - 1 := rfl
  refine ⟨hdrop, h.maxPage, h.available, ?_, ?_, ?_, ?_⟩
  · exact fun g hg => h.below g (List.mem_cons_of_mem f hg)
  · exact fun g hg => h.live g (List.mem_cons_of_mem f hg)
  · have hpages := h.pages
    omega
  · have hbalance := h.balance
    have hallocs : (p.release f).totalAllocs = p.totalAllocs := rfl
    have hfrees : (p.release f).totalFrees = (p.totalFrees + 1) % 4294967296 := rfl
    rw [hallocs, hfrees, hused]
    omega

/-- `pmm_free_page` on a page with one reference. -/
theorem freePage (h : Owes p₀ p (f :: l)) (hp : p₀.Sound) (hone : p.refcounts f = 1) :
    Owes p₀ (pmmFreePage p (frameAddr f)) l := by
  have hlimit := h.below f List.mem_cons_self
  rw [pmmFreePage_frameAddr p (lt_of_lt_of_le hlimit hp.limit),
    if_pos ⟨h.maxPage ▸ hlimit, h.bit_set List.mem_cons_self⟩]
  exact h.release hp hone

/-- `pmm_dec_ref`. -/
theorem decRef (h : Owes p₀ p (f :: l)) (hp : p₀.Sound) :
    Owes p₀ (pmmDecRef p (frameAddr f)) l := by
  have hlimit := h.below f List.mem_cons_self
  have hpos : 0 < p.refcounts f := by
    rw [h.count f, List.count_cons_self]
    omega
  rw [pmmDecRef_frameAddr p (lt_of_lt_of_le hlimit hp.limit) (h.maxPage ▸ hlimit) hpos
    (h.bit_set List.mem_cons_self)]
  by_cases hone : p.refcounts f = 1
  · have heq : (p.setRef f 0).release f = p.release f := by
      simp [Pmm.release, Pmm.setRef, Function.update_idem]
    rw [if_pos hone, heq]
    exact h.release hp hone
  · have hpool : p.pool.drop f = (p.setRef f (p.refcounts f - 1)).pool := if_neg hone
    rw [if_neg hone]
    apply h.setRef
    · rw [← hpool]
      exact h.lent.drop hp.idle (h.live f List.mem_cons_self)
    · intro g hg
      exact ⟨h.below g (List.mem_cons_of_mem f hg), h.live g (List.mem_cons_of_mem f hg)⟩

/-- `pmm_dec_ref` on a list of pages. -/
theorem decRefAll (hp : p₀.Sound) (h : Owes p₀ p (l ++ l')) :
    Owes p₀ (l.foldl (fun p f => pmmDecRef p (frameAddr f)) p) l' := by
  induction l generalizing p with
  | nil => exact h
  | cons f l ih =>
    rw [List.foldl_cons]
    exact ih (h.decRef hp)

/-- `pmm_inc_ref` on a list of different pages in use. -/
theorem incRefAll (hp : p₀.Sound) (h : Owes p₀ p l') (hnodup : l.Nodup)
    (hall : ∀ f ∈ l, f < p.maxPage ∧ p.bitmap f = true ∧ p.refcounts f < 0xFFFF ∧
      (p₀.bitmap f = true → 0 < p₀.refcounts f)) :
    Owes p₀ (l.foldl (fun p f => pmmIncRef p (frameAddr f)) p) (l ++ l') := by
  induction l generalizing p l' with
  | nil => exact h
  | cons f l ih =>
    obtain ⟨hf, hnodup⟩ := List.nodup_cons.mp hnodup
    obtain ⟨hlimit, hbit, hroom, hlive⟩ := hall f List.mem_cons_self
    have hstep := h.incRef hp hlimit hbit hroom hlive
    have hrest : Owes p₀ (l.foldl (fun p f => pmmIncRef p (frameAddr f))
        (pmmIncRef p (frameAddr f))) (l ++ f :: l') := by
      refine ih hstep hnodup fun g hg => ?_
      obtain ⟨hglimit, hgbit, hgroom, hglive⟩ := hall g (List.mem_cons_of_mem f hg)
      have hgf : g ≠ f := by
        rintro rfl
        exact hf hg
      have hsame : (pmmIncRef p (frameAddr f)).refcounts g = p.refcounts g := by
        rw [hstep.count g, h.count g, List.count_cons_of_ne (Ne.symm hgf)]
      refine ⟨?_, ?_, by rwa [hsame], hglive⟩
      · rw [hstep.maxPage, ← h.maxPage]
        exact hglimit
      · refine (hstep.lent.used g).mpr (((h.lent.used g).mp hgbit).imp_right fun hmem => ?_)
        exact List.mem_cons_of_mem f hmem
    rw [List.foldl_cons]
    exact hrest.perm List.perm_middle

end Owes

end Pmm

end EnclaveOS
