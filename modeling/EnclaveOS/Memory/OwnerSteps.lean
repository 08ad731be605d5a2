import EnclaveOS.Memory.Ownership

/-!
# Owner steps - the elementary moves on frames

The moves from which every page-table function is put together: a frame changes
hands, an entry is rewritten, a table or a directory is linked or unlinked.  For
each move the invariant `VmInv` holds afterwards with an explicit new
assignment of owners.
-/

namespace EnclaveOS

open PageWord RefCount

theorem Machine.setWord_setWord (m : Machine) (f i : Nat) (a b : Word) :
    (m.setWord f i a).setWord f i b = m.setWord f i b := by
  simp [Machine.setWord]

namespace VmInv

variable {m : Machine} {pds : Finset Nat} {own : Nat → Owner}

/-- The invariant reads memory only in directories and tables. -/
theorem congrMem (h : VmInv m pds own) (m' : Machine) (hpmm : m'.pmm = m.pmm)
    (hboot : m'.bootPageDirectory = m.bootPageDirectory)
    (hbootmem : m'.mem m.bootPageDirectory = m.mem m.bootPageDirectory)
    (hmem : ∀ f, (own f = .dir ∨ ∃ pd i, own f = .table pd i) → m'.mem f = m.mem f) :
    VmInv m' pds own := by
  have hdir : ∀ pd ∈ pds, m'.mem pd = m.mem pd := fun pd hpd => hmem pd (Or.inl (h.dir pd hpd))
  have hentry : ∀ s ∈ userSites pds, siteEntry m' s = siteEntry m s :=
    fun s hs => h.siteEntry_congr hmem hs
  have hsite : ∀ s ∈ userSites pds, siteFrame m' s = siteFrame m s :=
    fun s hs => siteFrame_congr (hentry s hs)
  refine ⟨hpmm ▸ h.limit, fun f hf => ?_, fun f hf => h.beyond f (hpmm ▸ hf), hpmm ▸ h.zeroBit,
    h.zero, hboot ▸ h.boot, h.dir, ?_, ?_, ?_, ?_, ?_, ?_, ?_, ?_, ?_⟩
  · rw [hpmm]
    exact h.free_iff f (by rwa [hpmm] at hf)
  · intro pd hpd i hi hpres
    rw [hdir pd hpd] at hpres ⊢
    exact h.table pd hpd i hi hpres
  · intro pd hpd i hi hi'
    rw [hdir pd hpd, hboot, hbootmem]
    exact h.kernelHalf pd hpd i hi hi'
  · intro pd hpd i hi
    rw [hdir pd hpd]
    exact h.small pd hpd i hi
  · intro s hs w hw
    exact h.page s hs w (by rwa [← hentry s hs])
  · intro f hf
    have hrefs : userRefs m' pds f = userRefs m pds f := refs_congr hsite f
    rw [hpmm, hrefs]
    exact h.counted f hf
  · intro f hf
    rw [hpmm]
    exact h.one f hf
  · intro pd i j i' j' f hs hs' hf hf'
    rw [hsite _ hs] at hf
    rw [hsite _ hs'] at hf'
    exact h.single pd i j i' j' f hs hs' hf hf'
  · intro s hs w hw hplain
    rw [hpmm]
    exact h.cow s hs w (by rwa [← hentry s hs]) hplain
  · intro s hs w hw hcow
    exact h.marked s hs w (by rwa [← hentry s hs]) hcow

/-- Writing into a held frame or a user page touches neither tables nor the
kernel. -/
theorem writeData (h : VmInv m pds own) {n : Nat} (hn : own n = .held ∨ own n = .page)
    (m' : Machine) (hpmm : m'.pmm = m.pmm)
    (hboot : m'.bootPageDirectory = m.bootPageDirectory)
    (hkstack : m'.kstackBitmap = m.kstackBitmap) (hmem : ∀ g, g ≠ n → m'.mem g = m.mem g) :
    VmInv m' pds own ∧ KernelFrame m own m' own := by
  constructor
  · apply h.congrMem m' hpmm hboot
    · apply hmem
      have huse := h.boot
      rintro rfl
      rcases hn with hn | hn <;> rw [hn] at huse <;> cases huse
    · intro f hf
      apply hmem
      rintro rfl
      rcases hn with hn | hn <;> rw [hn] at hf <;> simp at hf
  · refine ⟨fun _ _ => Iff.rfl, ?_, hboot, by rw [hpmm], hkstack⟩
    intro f use hf
    apply hmem
    rintro rfl
    rcases hn with hn | hn <;> rw [hn] at hf <;> cases hf

/-- A frame that no directory uses changes hands together with its bitmap bit. -/
theorem retag (h : VmInv m pds own) {f : Nat} {o : Owner} {p : Pmm}
    (hf : f < m.pmm.maxPage) (hnz : f ≠ 0) (hnb : f ≠ m.bootPageDirectory)
    (hpage : own f ≠ .page) (hdir : f ∉ pds)
    (htable : ∀ pd ∈ pds, ∀ i < 768, isPresent (m.mem pd i) = true → frameOf (m.mem pd i) ≠ f)
    (ho : o ≠ .page) (hlimit : p.maxPage = m.pmm.maxPage)
    (hrest : ∀ g, g ≠ f → p.bitmap g = m.pmm.bitmap g ∧ p.refcounts g = m.pmm.refcounts g)
    (hfree : o = .free ↔ p.bitmap f = false)
    (hone : (o = .held ∨ ∃ pd i, o = .table pd i) → p.refcounts f = 1) :
    VmInv (m.withPmm p) pds (Function.update own f o) := by
  have hother : ∀ g, g ≠ f → Function.update own f o g = own g :=
    fun g hg => Function.update_of_ne hg _ _
  refine
    { limit := hlimit ▸ h.limit
      free_iff := ?_
      beyond := ?_
      zeroBit := ?_
      zero := ?_
      boot := ?_
      dir := ?_
      table := ?_
      kernelHalf := h.kernelHalf
      small := h.small
      page := ?_
      counted := ?_
      one := ?_
      single := h.single
      cow := ?_
      marked := h.marked }
  · intro g hg
    have hg' : g < m.pmm.maxPage := hlimit ▸ hg
    by_cases hgf : g = f
    · subst hgf
      rw [Function.update_self]
      exact hfree
    · rw [hother g hgf, h.free_iff g hg']
      exact (by rw [Machine.withPmm_pmm, (hrest g hgf).1])
  · intro g hg
    have hg' : m.pmm.maxPage ≤ g := hlimit ▸ hg
    rw [hother g (by omega)]
    exact h.beyond g hg'
  · exact ((hrest 0 (Ne.symm hnz)).1).trans h.zeroBit
  · rw [hother 0 (Ne.symm hnz)]
    exact h.zero
  · rw [Machine.withPmm_boot, hother _ (Ne.symm hnb)]
    exact h.boot
  · intro pd hpd
    rw [hother pd (fun heq => hdir (heq ▸ hpd))]
    exact h.dir pd hpd
  · intro pd hpd i hi hpres
    rw [Machine.withPmm_mem] at hpres ⊢
    rw [hother _ (htable pd hpd i hi hpres)]
    exact h.table pd hpd i hi hpres
  · intro s hs w hw
    have hown := h.page s hs w hw
    rw [hother _ (by rintro rfl; exact hpage hown)]
    exact hown
  · intro g hg
    have hgf : g ≠ f := by
      rintro rfl
      rw [Function.update_self] at hg
      exact ho hg
    rw [hother g hgf] at hg
    rw [Machine.withPmm_pmm, (hrest g hgf).2]
    exact h.counted g hg
  · intro g hg
    by_cases hgf : g = f
    · subst hgf
      rw [Function.update_self] at hg
      exact hone hg
    · rw [hother g hgf] at hg
      rw [Machine.withPmm_pmm, (hrest g hgf).2]
      exact h.one g hg
  · intro s hs w hw hplain
    have hown := h.page s hs w hw
    rw [Machine.withPmm_pmm, (hrest _ (by rintro rfl; exact hpage hown)).2]
    exact h.cow s hs w hw hplain

/-- New flags on a mapped page. -/
theorem setFlags (h : VmInv m pds own) {pd i j : Nat} {w : Word} (hpd : pd ∈ pds) (hi : i < 768)
    (hj : j < 1024) (hpde : isPresent (m.mem pd i) = true)
    (hpte : isPresent (m.pteAt pd i j) = true) (hw : isPresent w = true)
    (hframe : frameOf w = frameOf (m.pteAt pd i j))
    (hcow : hasFlag w pageCow = false → m.pmm.refcounts (frameOf w) = 1)
    (hmarked : hasFlag w pageCow = true → hasFlag w pageWrite = false) :
    VmInv (m.setWord (frameOf (m.mem pd i)) j w) pds own ∧
      KernelFrame m own (m.setWord (frameOf (m.mem pd i)) j w) own := by
  have hentry : siteEntry m (pd, i, j) = some (m.pteAt pd i j) :=
    siteEntry_eq_some.mpr ⟨hpde, hpte, rfl⟩
  have hsite : siteFrame m (pd, i, j) = some (frameOf w) :=
    siteFrame_eq_some.mpr ⟨_, hentry, hframe.symm⟩
  have hs₀ : (pd, i, j) ∈ userSites pds := mem_userSites.mpr ⟨hpd, hi, hj⟩
  refine h.writePte (p := m.pmm) hpd hi hj hpde
    { maxPage := rfl
      free_iff := h.free_iff
      keep := fun _ _ _ => rfl
      change := fun f hf => hf.elim Or.inl (fun hf => Or.inr (Or.inl hf))
      stay := fun s hs _ v hv => ⟨h.page s hs v hv, h.cow s hs v hv⟩
      new := fun _ => h.page_of_frame hs₀ hsite
      counted := ?_
      one := h.one
      single := fun _ i' j' hs' hf' => h.single pd i' j' i j _ hs' hs₀ hf' hsite
      cow := fun _ => hcow
      marked := fun _ => hmarked }
  intro f hf
  obtain ⟨hcount, hpos⟩ := h.counted f hf
  refine ⟨hpos, ?_⟩
  rw [hsite, hcount]
  simp [hw]

/-- A held frame is mapped at an empty entry and becomes a user page. -/
theorem mapHeld (h : VmInv m pds own) {pd i j n : Nat} {w : Word} (hpd : pd ∈ pds)
    (hi : i < 768) (hj : j < 1024) (hpde : isPresent (m.mem pd i) = true)
    (hpte : isPresent (m.pteAt pd i j) = false) (hn : own n = .held) (hw : isPresent w = true)
    (hframe : frameOf w = n) (hmarked : hasFlag w pageCow = true → hasFlag w pageWrite = false) :
    VmInv (m.setWord (frameOf (m.mem pd i)) j w) pds (Function.update own n .page) ∧
      KernelFrame m own (m.setWord (frameOf (m.mem pd i)) j w) (Function.update own n .page) := by
  have hnone : siteFrame m (pd, i, j) = none := by
    rw [siteFrame, siteEntry_eq_none fun _ => hpte, Option.map_none]
  have hother : ∀ g, g ≠ n → Function.update own n Owner.page g = own g :=
    fun g hg => Function.update_of_ne hg _ _
  have hnpage : own n ≠ .page := by rw [hn]; rintro ⟨⟩
  have hunmapped : ∀ s ∈ userSites pds, siteFrame m s ≠ some n :=
    fun s hs hf => hnpage (h.page_of_frame hs hf)
  refine h.writePte (p := m.pmm) hpd hi hj hpde
    { maxPage := rfl
      free_iff := ?free
      keep := fun f _ hf => hother f (by rintro rfl; exact hf hn)
      change := ?change
      stay := ?stay
      new := fun _ => by rw [hframe, Function.update_self]
      counted := ?counted
      one := ?one
      single := fun _ i' j' hs' hf' => absurd (hframe ▸ hf') (hunmapped _ hs')
      cow := fun _ _ => by rw [hframe]; exact h.one n (Or.inl hn)
      marked := fun _ => hmarked }
  case free =>
    intro f hf
    by_cases hfn : f = n
    · subst hfn
      rw [Function.update_self, ← h.free_iff f hf, hn]
      simp
    · rw [hother f hfn]
      exact h.free_iff f hf
  case change =>
    intro f hf
    by_cases hfn : f = n
    · subst hfn
      exact Or.inl (Function.update_self _ _ _)
    · rw [hother f hfn]
      exact hf.elim Or.inl (fun hf => Or.inr (Or.inl hf))
  case stay =>
    intro s hs _ v hv
    rw [hother _ fun heq => hunmapped s hs (heq ▸ siteFrame_of_entry hv)]
    exact ⟨h.page s hs v hv, h.cow s hs v hv⟩
  case counted =>
    intro f hf
    by_cases hfn : f = n
    · subst hfn
      have hrefs := h.refs_eq_zero hnpage
      have hrc := h.one f (Or.inl hn)
      simp [hnone, hw, hframe, hrefs, hrc]
    · rw [hother f hfn] at hf
      obtain ⟨hcount, hpos⟩ := h.counted f hf
      refine ⟨hpos, ?_⟩
      simp [hnone, hw, hframe, hcount, Ne.symm hfn]
  case one =>
    intro f hf
    by_cases hfn : f = n
    · subst hfn
      exact h.one f (Or.inl hn)
    · rw [hother f hfn] at hf
      exact h.one f hf

end VmInv

/-- An allocator step that gives up one reference to page `f`; the last one
returns the page to the pool. -/
structure Dropped (p : Pmm) (f : Nat) (p' : Pmm) : Prop where
  maxPage : p'.maxPage = p.maxPage
  rest : ∀ g, g ≠ f → p'.bitmap g = p.bitmap g ∧ p'.refcounts g = p.refcounts g
  last : p.refcounts f = 1 → p'.bitmap f = false
  more : p.refcounts f ≠ 1 → p'.bitmap f = p.bitmap f ∧ p'.refcounts f = p.refcounts f - 1

/-- `pmm_dec_ref` gives up one reference. -/
theorem dropped_decRef {p : Pmm} {f : Nat} (hmax : f < pmmMaxPages) (hlimit : f < p.maxPage)
    (hpos : 0 < p.refcounts f) (hbit : p.bitmap f = true) :
    Dropped p f (pmmDecRef p (frameAddr f)) := by
  rw [pmmDecRef_frameAddr p hmax hlimit hpos hbit]
  by_cases hone : p.refcounts f = 1
  · rw [if_pos hone]
    refine ⟨rfl, fun g hg => ?_, fun _ => by simp, fun hne => absurd hone hne⟩
    simp [Function.update_of_ne hg]
  · rw [if_neg hone]
    refine ⟨rfl, fun g hg => ?_, fun h1 => absurd h1 hone, fun _ => by simp⟩
    simp [Function.update_of_ne hg]

/-- `pmm_free_page` gives up the reference to a page that has only one. -/
theorem dropped_freePage {p : Pmm} {f : Nat} (hmax : f < pmmMaxPages) (hlimit : f < p.maxPage)
    (hone : p.refcounts f = 1) (hbit : p.bitmap f = true) :
    Dropped p f (pmmFreePage p (frameAddr f)) := by
  rw [pmmFreePage_frameAddr p hmax, if_pos ⟨hlimit, hbit⟩]
  refine ⟨rfl, fun g hg => ?_, fun _ => by simp, fun hne => absurd hone hne⟩
  simp [Function.update_of_ne hg]

/-- Owners after one reference to the page `f` is dropped. -/
def ownerAfterDrop (own : Nat → Owner) (p : Pmm) (f : Nat) : Nat → Owner :=
  if p.refcounts f = 1 then Function.update own f .free else own

namespace VmInv

variable {m : Machine} {pds : Finset Nat} {own : Nat → Owner}

/-- A user page loses the mapping at one entry, and the reference with it. -/
theorem unmapDrop (h : VmInv m pds own) {pd i j : Nat} {w : Word} {p : Pmm} (hpd : pd ∈ pds)
    (hi : i < 768) (hj : j < 1024) (hpde : isPresent (m.mem pd i) = true)
    (hpte : isPresent (m.pteAt pd i j) = true) (hw : isPresent w = false)
    (hp : Dropped m.pmm (frameOf (m.pteAt pd i j)) p) :
    VmInv ((m.withPmm p).setWord (frameOf (m.mem pd i)) j w) pds
        (ownerAfterDrop own m.pmm (frameOf (m.pteAt pd i j))) ∧
      KernelFrame m own ((m.withPmm p).setWord (frameOf (m.mem pd i)) j w)
        (ownerAfterDrop own m.pmm (frameOf (m.pteAt pd i j))) := by
  set f := frameOf (m.pteAt pd i j) with hfdef
  have hs₀ : (pd, i, j) ∈ userSites pds := mem_userSites.mpr ⟨hpd, hi, hj⟩
  have hentry : siteEntry m (pd, i, j) = some (m.pteAt pd i j) :=
    siteEntry_eq_some.mpr ⟨hpde, hpte, rfl⟩
  have hsite : siteFrame m (pd, i, j) = some f := siteFrame_of_entry hentry
  have hown : own f = .page := h.page_of_frame hs₀ hsite
  obtain ⟨hcount, hpos⟩ := h.counted f hown
  have hlimit : f < m.pmm.maxPage := h.lt_limit (by rw [hown]; rintro use ⟨⟩)
  have hbit : m.pmm.bitmap f = true := h.bit_set (by rw [hown]; rintro ⟨⟩) hlimit
  have hother : ∀ g, g ≠ f → ownerAfterDrop own m.pmm f g = own g := by
    intro g hg
    unfold ownerAfterDrop
    split_ifs
    · exact Function.update_of_ne hg _ _
    · rfl
  have hself : ownerAfterDrop own m.pmm f f = if m.pmm.refcounts f = 1 then .free else .page := by
    unfold ownerAfterDrop
    split_ifs
    · exact Function.update_self _ _ _
    · exact hown
  refine h.writePte hpd hi hj hpde
    { maxPage := hp.maxPage
      free_iff := ?free
      keep := fun g hg _ => hother g (by rintro rfl; exact hg hown)
      change := ?change
      stay := ?stay
      new := fun hpres => absurd hpres (by simp [hw])
      counted := ?counted
      one := ?one
      single := fun hpres => absurd hpres (by simp [hw])
      cow := fun hpres => absurd hpres (by simp [hw])
      marked := fun hpres => absurd hpres (by simp [hw]) }
  case free =>
    intro g hg
    by_cases hgf : g = f
    · rw [hgf, hself]
      by_cases hone : m.pmm.refcounts f = 1
      · simp [hone, hp.last hone]
      · simp [hone, (hp.more hone).1, hbit]
    · rw [hother g hgf, (hp.rest g hgf).1]
      exact h.free_iff g hg
  case change =>
    intro g hg
    by_cases hgf : g = f
    · rw [hgf, hself]
      split_ifs <;> simp
    · rw [hother g hgf]
      exact hg.elim Or.inl (fun hg => Or.inr (Or.inl hg))
  case stay =>
    intro s hs hne v hv
    by_cases hgf : frameOf v = f
    · -- another entry maps the page, so the dropped reference was not the last
      have hmany : m.pmm.refcounts f ≠ 1 := by
        intro hone
        rw [hcount] at hone
        exact hne (site_unique (le_of_eq hone) hs hs₀ (hgf ▸ siteFrame_of_entry hv) hsite)
      have hcow := h.cow s hs v hv
      rw [hgf] at hcow ⊢
      exact ⟨by rw [hself, if_neg hmany], fun hplain => absurd (hcow hplain) hmany⟩
    · rw [hother _ hgf, (hp.rest _ hgf).2]
      exact ⟨h.page s hs v hv, h.cow s hs v hv⟩
  case counted =>
    intro g hg
    by_cases hgf : g = f
    · rw [hgf] at hg ⊢
      rw [hself] at hg
      have hmany : m.pmm.refcounts f ≠ 1 := by
        intro hone
        simp [hone] at hg
      rw [(hp.more hmany).2, if_pos hsite]
      simp only [hw, Bool.false_eq_true, false_and, if_false]
      omega
    · rw [hother g hgf] at hg
      obtain ⟨hcg, hposg⟩ := h.counted g hg
      have hne : siteFrame m (pd, i, j) ≠ some g := by
        rw [hsite]
        simpa using Ne.symm hgf
      rw [(hp.rest g hgf).2, if_neg hne]
      simp only [hw, Bool.false_eq_true, false_and, if_false]
      omega
  case one =>
    intro g hg
    by_cases hgf : g = f
    · rw [hgf, hself] at hg
      split_ifs at hg <;> simp at hg
    · rw [hother g hgf] at hg
      rw [(hp.rest g hgf).2]
      exact h.one g hg

/-- A user page gains a mapping at an empty entry, and a reference with it. -/
theorem share (h : VmInv m pds own) {pd i j f : Nat} {w : Word} (hpd : pd ∈ pds)
    (hi : i < 768) (hj : j < 1024) (hpde : isPresent (m.mem pd i) = true)
    (hpte : isPresent (m.pteAt pd i j) = false) (hf : own f = .page) (hw : isPresent w = true)
    (hframe : frameOf w = f) (hcow : hasFlag w pageCow = true)
    (hmarked : hasFlag w pageWrite = false)
    (hshared : ∀ s ∈ userSites pds, ∀ v, siteEntry m s = some v → frameOf v = f →
      hasFlag v pageCow = true)
    (hnew : ∀ i' j', (pd, i', j') ∈ userSites pds → siteFrame m (pd, i', j') ≠ some f) :
    VmInv ((m.withPmm (m.pmm.setRef f (m.pmm.refcounts f + 1))).setWord
        (frameOf (m.mem pd i)) j w) pds own ∧
      KernelFrame m own ((m.withPmm (m.pmm.setRef f (m.pmm.refcounts f + 1))).setWord
        (frameOf (m.mem pd i)) j w) own := by
  have hnone : siteFrame m (pd, i, j) = none := by
    rw [siteFrame, siteEntry_eq_none fun _ => hpte, Option.map_none]
  refine h.writePte hpd hi hj hpde
    { maxPage := rfl
      free_iff := h.free_iff
      keep := fun _ _ _ => rfl
      change := fun g hg => hg.elim Or.inl (fun hg => Or.inr (Or.inl hg))
      stay := ?stay
      new := fun _ => by rw [hframe, hf]
      counted := ?counted
      one := ?one
      single := fun _ i' j' hs' hf' => absurd (hframe ▸ hf') (hnew i' j' hs')
      cow := fun _ hplain => absurd hplain (by simp [hcow])
      marked := fun _ _ => hmarked }
  case stay =>
    intro s hs _ v hv
    refine ⟨h.page s hs v hv, fun hplain => ?_⟩
    have hne : frameOf v ≠ f := fun heq => absurd hplain (by simp [hshared s hs v hv heq])
    rw [Pmm.setRef_refcounts, Function.update_of_ne hne]
    exact h.cow s hs v hv hplain
  case counted =>
    intro g hg
    obtain ⟨hcg, hposg⟩ := h.counted g hg
    by_cases hgf : g = f
    · subst hgf
      simp only [Pmm.setRef_refcounts, Function.update_self, hnone, hw, hframe]
      simp [hcg]
    · simp only [Pmm.setRef_refcounts, Function.update_of_ne hgf, hnone, hw, hframe]
      refine ⟨hposg, ?_⟩
      simp [hcg, Ne.symm hgf]
  case one =>
    intro g hg
    have hgf : g ≠ f := by
      rintro rfl
      rw [hf] at hg
      simp at hg
    simp only [Pmm.setRef_refcounts, Function.update_of_ne hgf]
    exact h.one g hg

/-- A free or held frame changes hands. -/
theorem retagIdle (h : VmInv m pds own) {f : Nat} {o : Owner} {p : Pmm}
    (hidle : own f = .free ∨ own f = .held) (ho : o ≠ .page)
    (hlimit : p.maxPage = m.pmm.maxPage)
    (hrest : ∀ g, g ≠ f → p.bitmap g = m.pmm.bitmap g ∧ p.refcounts g = m.pmm.refcounts g)
    (hfree : o = .free ↔ p.bitmap f = false)
    (hone : (o = .held ∨ ∃ pd i, o = .table pd i) → p.refcounts f = 1) :
    VmInv (m.withPmm p) pds (Function.update own f o) := by
  have hkernel : ∀ use, own f ≠ .kernel use := by
    rcases hidle with hf | hf <;> rw [hf] <;> rintro use ⟨⟩
  refine h.retag (h.lt_limit hkernel) (h.ne_zero hkernel) ?_ ?_ ?_ ?_ ho hlimit hrest hfree hone
  · rintro rfl
    have huse := h.boot
    exact hkernel _ huse
  · rcases hidle with hf | hf <;> rw [hf] <;> rintro ⟨⟩
  · intro hpd
    have hdir := h.dir f hpd
    rcases hidle with hf | hf <;> rw [hf] at hdir <;> cases hdir
  · intro pd hpd i hi hpres heq
    have htable := h.table pd hpd i hi hpres
    rw [heq] at htable
    rcases hidle with hf | hf <;> rw [hf] at htable <;> cases htable

/-- Taking a free frame from the pool. -/
theorem allocHeld (h : VmInv m pds own) {f : Nat} (hclear : m.pmm.bitmap f = false)
    (hf : f < m.pmm.maxPage) :
    VmInv (m.withPmm (m.pmm.take f)) pds (Function.update own f .held) ∧
      KernelFrame m own (m.withPmm (m.pmm.take f)) (Function.update own f .held) := by
  have hfree : own f = .free := (h.free_iff f hf).mpr hclear
  constructor
  · refine h.retagIdle (p := m.pmm.take f) (Or.inl hfree) ?_ rfl ?_ ?_ ?_
    · rintro ⟨⟩
    · intro g hg
      simp [Function.update_of_ne hg]
    · simp
    · simp
  · exact KernelFrame.retag (by rw [hfree]; rintro use ⟨⟩) (by rintro use ⟨⟩) rfl

/-- Giving a held frame back to the pool. -/
theorem freeHeld (h : VmInv m pds own) {f : Nat} (hf : own f = .held) :
    VmInv (m.freePage (frameAddr f)) pds (Function.update own f .free) ∧
      KernelFrame m own (m.freePage (frameAddr f)) (Function.update own f .free) := by
  have hkernel : ∀ use, own f ≠ .kernel use := by rw [hf]; rintro use ⟨⟩
  have hlimit := h.lt_limit hkernel
  have hbit := h.bit_set (by rw [hf]; rintro ⟨⟩) hlimit
  have hd := dropped_freePage (h.lt_maxPages hkernel) hlimit (h.one f (Or.inl hf)) hbit
  constructor
  · apply h.retagIdle (Or.inr hf) (by rintro ⟨⟩) hd.maxPage hd.rest
    · simp [hd.last (h.one f (Or.inl hf))]
    · simp
  · exact KernelFrame.retag hkernel (by rintro use ⟨⟩) hd.maxPage

/-- Owner of a table that is linked into a directory next. -/
theorem retagTable (h : VmInv m pds own) {t : Nat} (ht : own t = .held) (pd i : Nat) :
    VmInv m pds (Function.update own t (.table pd i)) ∧
      KernelFrame m own m (Function.update own t (.table pd i)) := by
  have hkernel : ∀ use, own t ≠ .kernel use := by rw [ht]; rintro use ⟨⟩
  have hbit := h.bit_set (by rw [ht]; rintro ⟨⟩) (h.lt_limit hkernel)
  constructor
  · apply h.retagIdle (p := m.pmm) (Or.inr ht) (by rintro ⟨⟩) rfl (fun g _ => ⟨rfl, rfl⟩)
    · simp [hbit]
    · exact fun _ => h.one t (Or.inl ht)
  · exact KernelFrame.retag (p := m.pmm) hkernel (by rintro use ⟨⟩) rfl

/-- A directory entry that maps no page is rewritten to another such entry. -/
theorem setDirEntry (h : VmInv m pds own) {pd i : Nat} {w : Word} (hpd : pd ∈ pds)
    (hi : i < 768)
    (hold : ∀ j < 1024, siteEntry m (pd, i, j) = none)
    (htable : isPresent w = true → own (frameOf w) = .table pd i)
    (hempty : isPresent w = true → ∀ j < 1024, isPresent (m.mem (frameOf w) j) = false)
    (hsmall : hasFlag w pagePs = false) :
    VmInv (m.setWord pd i w) pds own ∧ KernelFrame m own (m.setWord pd i w) own := by
  have hdir := h.dir pd hpd
  have hothers : ∀ g, own g ≠ .dir → (m.setWord pd i w).mem g = m.mem g := by
    intro g hg
    apply Machine.setWord_mem_of_ne
    rintro rfl
    exact hg hdir
  have hentry : ∀ a b, (m.setWord pd i w).mem a b =
      if a = pd ∧ b = i then w else m.mem a b := fun a b => Machine.setWord_mem _ _ _ _ _
  have hkeep : ∀ s ∈ userSites pds, siteEntry (m.setWord pd i w) s = siteEntry m s := by
    rintro ⟨a, b, c⟩ hs
    obtain ⟨ha, hb, hc⟩ := mem_userSites.mp hs
    by_cases hab : a = pd ∧ b = i
    · obtain ⟨rfl, rfl⟩ := hab
      rw [hold c hc]
      cases hpres : isPresent w with
      | false => simp [siteEntry, hpres]
      | true =>
        have hmem : (m.setWord a b w).mem (frameOf w) = m.mem (frameOf w) :=
          hothers _ (by rw [htable hpres]; rintro ⟨⟩)
        simp [siteEntry, Machine.pteAt, hmem, hempty hpres c hc]
    · simp only [siteEntry, Machine.pteAt, hentry, if_neg hab]
      cases hpres : isPresent (m.mem a b) with
      | false => simp
      | true =>
        have hne : ¬ frameOf (m.mem a b) = pd := by
          intro heq
          have htab := h.table a ha b hb hpres
          rw [heq, hdir] at htab
          cases htab
        simp [hne]
  have hsite : ∀ s ∈ userSites pds, siteFrame (m.setWord pd i w) s = siteFrame m s :=
    fun s hs => siteFrame_congr (hkeep s hs)
  constructor
  · refine
      { limit := h.limit
        free_iff := h.free_iff
        beyond := h.beyond
        zeroBit := h.zeroBit
        zero := h.zero
        boot := h.boot
        dir := h.dir
        table := ?_
        kernelHalf := ?_
        small := ?_
        page := fun s hs v hv => h.page s hs v (by rwa [← hkeep s hs])
        counted := ?_
        one := h.one
        single := ?_
        cow := fun s hs v hv => h.cow s hs v (by rwa [← hkeep s hs])
        marked := fun s hs v hv => h.marked s hs v (by rwa [← hkeep s hs]) }
    · intro a ha b hb hab
      rw [hentry] at hab ⊢
      split_ifs at hab ⊢ with hsame
      · obtain ⟨rfl, rfl⟩ := hsame
        exact htable hab
      · exact h.table a ha b hb hab
    · intro a ha b hb hb'
      have huse := h.boot
      have hnotdir : own m.bootPageDirectory ≠ .dir := by
        rw [huse]
        rintro ⟨⟩
      rw [hentry, if_neg (by omega), Machine.setWord_boot, hothers _ hnotdir]
      exact h.kernelHalf a ha b hb hb'
    · intro a ha b hb
      rw [hentry]
      split_ifs
      · exact hsmall
      · exact h.small a ha b hb
    · intro f hf
      have hrefs : userRefs (m.setWord pd i w) pds f = userRefs m pds f := refs_congr hsite f
      rw [hrefs]
      exact h.counted f hf
    · intro a b c b' c' f hs hs' hf hf'
      rw [hsite _ hs] at hf
      rw [hsite _ hs'] at hf'
      exact h.single a b c b' c' f hs hs' hf hf'
  · refine ⟨fun _ _ => Iff.rfl, fun f use hf => hothers f (by rw [hf]; rintro ⟨⟩), rfl, rfl, rfl⟩

/-- An empty table is linked at an empty directory entry. -/
theorem linkTable (h : VmInv m pds own) {pd i t : Nat} {w : Word} (hpd : pd ∈ pds)
    (hi : i < 768)
    (hpde : isPresent (m.mem pd i) = false) (ht : own t = .table pd i)
    (hempty : ∀ j < 1024, isPresent (m.mem t j) = false) (hframe : frameOf w = t)
    (hsmall : hasFlag w pagePs = false) :
    VmInv (m.setWord pd i w) pds own ∧ KernelFrame m own (m.setWord pd i w) own := by
  apply h.setDirEntry hpd hi
  · intro j _
    simp [siteEntry, hpde]
  · rw [hframe]
    exact fun _ => ht
  · rw [hframe]
    exact fun _ => hempty
  · exact hsmall

/-- An empty table is unlinked and returned to the pool. -/
theorem removeTable (h : VmInv m pds own) {pd i : Nat} {w : Word} {p : Pmm} (hpd : pd ∈ pds)
    (hi : i < 768) (hpde : isPresent (m.mem pd i) = true)
    (hempty : ∀ j < 1024, isPresent (m.pteAt pd i j) = false) (hw : isPresent w = false)
    (hsmall : hasFlag w pagePs = false) (hp : Dropped m.pmm (frameOf (m.mem pd i)) p) :
    VmInv ((m.withPmm p).setWord pd i w) pds
        (Function.update own (frameOf (m.mem pd i)) .free) ∧
      KernelFrame m own ((m.withPmm p).setWord pd i w)
        (Function.update own (frameOf (m.mem pd i)) .free) := by
  set t := frameOf (m.mem pd i) with ht
  have htable : own t = .table pd i := h.table pd hpd i hi hpde
  have hkernel : ∀ use, own t ≠ .kernel use := by rw [htable]; rintro use ⟨⟩
  -- first the entry goes, and the table is linked nowhere
  obtain ⟨hunlinked, hkeep⟩ : VmInv (m.setWord pd i w) pds own ∧
      KernelFrame m own (m.setWord pd i w) own := by
    apply h.setDirEntry hpd hi
    · intro j hj
      exact siteEntry_eq_none fun _ => hempty j hj
    · intro hpres
      rw [hw] at hpres
      cases hpres
    · intro hpres
      rw [hw] at hpres
      cases hpres
    · exact hsmall
  -- then the frame goes back to the pool
  refine ⟨?_, hkeep.trans (KernelFrame.retag (p := p) hkernel (by rintro use ⟨⟩) hp.maxPage)⟩
  refine hunlinked.retag (p := p) (h.lt_limit hkernel) (h.ne_zero hkernel) ?_ ?_ ?_ ?_
    (by rintro ⟨⟩) hp.maxPage hp.rest ?_ (by simp)
  · intro heq
    have huse := h.boot
    exact hkernel _ (heq ▸ huse)
  · rw [htable]
    rintro ⟨⟩
  · intro hmem
    rw [h.dir t hmem] at htable
    cases htable
  · intro a ha b hb hab heq
    rw [Machine.setWord_mem] at hab heq
    split_ifs at hab heq with hsame
    · rw [hw] at hab
      cases hab
    · exact hsame (h.table_inj hpd hi hpde ha hb hab heq)
  · simp [hp.last (h.one t (Or.inr ⟨pd, i, htable⟩))]

/-- A held frame without present user entries becomes a directory. -/
theorem addDir (h : VmInv m pds own) {n : Nat} (hn : own n = .held)
    (hempty : ∀ i < 768, isPresent (m.mem n i) = false)
    (hsmall : ∀ i < 768, hasFlag (m.mem n i) pagePs = false)
    (hhalf : ∀ i, 768 ≤ i → i < 1024 → m.mem n i = m.mem m.bootPageDirectory i) :
    VmInv m (insert n pds) (Function.update own n .dir) ∧
      KernelFrame m own m (Function.update own n .dir) := by
  have hkernel : ∀ use, own n ≠ .kernel use := by rw [hn]; rintro use ⟨⟩
  have hbit := h.bit_set (by rw [hn]; rintro ⟨⟩) (h.lt_limit hkernel)
  have hnotin : n ∉ pds := by
    intro hmem
    rw [h.dir n hmem] at hn
    cases hn
  have hdir : VmInv m pds (Function.update own n .dir) := by
    apply h.retagIdle (p := m.pmm) (Or.inr hn) (by rintro ⟨⟩) rfl (fun g _ => ⟨rfl, rfl⟩)
    · simp [hbit]
    · simp
  have hold : ∀ {a i j : Nat}, (a, i, j) ∈ userSites (insert n pds) →
      siteEntry m (a, i, j) ≠ none → (a, i, j) ∈ userSites pds := by
    intro a i j hs hne
    obtain ⟨ha, hi, hj⟩ := mem_userSites.mp hs
    rcases Finset.mem_insert.mp ha with rfl | ha
    · exact absurd (by simp [siteEntry, hempty i hi]) hne
    · exact mem_userSites.mpr ⟨ha, hi, hj⟩
  have hsome : ∀ {s : Site} {w : Word}, siteEntry m s = some w → siteEntry m s ≠ none := by
    intro s w hw
    simp [hw]
  have hframe : ∀ {s : Site}, siteFrame m s ≠ none → siteEntry m s ≠ none := by
    intro s hs hne
    exact hs (by simp [siteFrame, hne])
  refine ⟨?_, KernelFrame.retag (p := m.pmm) hkernel (by rintro use ⟨⟩) rfl⟩
  refine
    { limit := hdir.limit
      free_iff := hdir.free_iff
      beyond := hdir.beyond
      zeroBit := hdir.zeroBit
      zero := hdir.zero
      boot := hdir.boot
      dir := ?_
      table := ?_
      kernelHalf := ?_
      small := ?_
      page := ?_
      counted := ?_
      one := hdir.one
      single := fun a i j i' j' f hs hs' hf hf' =>
        hdir.single a i j i' j' f (hold hs (hframe (by simp [hf])))
          (hold hs' (hframe (by simp [hf']))) hf hf'
      cow := ?_
      marked := ?_ }
  · intro pd hpd
    rcases Finset.mem_insert.mp hpd with rfl | hpd
    · exact Function.update_self _ _ _
    · exact hdir.dir pd hpd
  · intro pd hpd i hi hpres
    rcases Finset.mem_insert.mp hpd with rfl | hpd
    · rw [hempty i hi] at hpres
      cases hpres
    · exact hdir.table pd hpd i hi hpres
  · intro pd hpd i hi hi'
    rcases Finset.mem_insert.mp hpd with rfl | hpd
    · exact hhalf i hi hi'
    · exact h.kernelHalf pd hpd i hi hi'
  · intro pd hpd i hi
    rcases Finset.mem_insert.mp hpd with rfl | hpd
    · exact hsmall i hi
    · exact h.small pd hpd i hi
  · rintro ⟨a, i, j⟩ hs w hw
    exact hdir.page _ (hold hs (hsome hw)) w hw
  · intro f hf
    have hrefs : userRefs m (insert n pds) f = userRefs m pds f := by
      apply refs_congr_support
      rintro ⟨a, i, j⟩ hs
      constructor
      · exact fun hmem => hold hmem (hframe hs)
      · intro hmem
        obtain ⟨ha, hi, hj⟩ := mem_userSites.mp hmem
        exact mem_userSites.mpr ⟨Finset.mem_insert_of_mem ha, hi, hj⟩
    rw [hrefs]
    exact hdir.counted f hf
  · rintro ⟨a, i, j⟩ hs w hw
    exact hdir.cow _ (hold hs (hsome hw)) w hw
  · rintro ⟨a, i, j⟩ hs w hw
    exact hdir.marked _ (hold hs (hsome hw)) w hw

/-- A directory without present user entries is returned to the pool. -/
theorem removeDir (h : VmInv m pds own) {pd : Nat} (hpd : pd ∈ pds)
    (hempty : ∀ i < 768, isPresent (m.mem pd i) = false) :
    VmInv (m.freePage (frameAddr pd)) (pds.erase pd) (Function.update own pd .free) ∧
      KernelFrame m own (m.freePage (frameAddr pd)) (Function.update own pd .free) := by
  have hdir := h.dir pd hpd
  have hkernel : ∀ use, own pd ≠ .kernel use := by rw [hdir]; rintro use ⟨⟩
  have hlimit := h.lt_limit hkernel
  have hbit := h.bit_set (by rw [hdir]; rintro ⟨⟩) hlimit
  have hfree : pmmFreePage m.pmm (frameAddr pd) = m.pmm.release pd := by
    rw [pmmFreePage_frameAddr _ (h.lt_maxPages hkernel), if_pos ⟨hlimit, hbit⟩]
  have hsub : ∀ {a i j : Nat}, (a, i, j) ∈ userSites (pds.erase pd) →
      (a, i, j) ∈ userSites pds := by
    intro a i j hs
    obtain ⟨ha, hi, hj⟩ := mem_userSites.mp hs
    exact mem_userSites.mpr ⟨Finset.mem_of_mem_erase ha, hi, hj⟩
  have hshrunk : VmInv m (pds.erase pd) own := by
    refine
      { limit := h.limit
        free_iff := h.free_iff
        beyond := h.beyond
        zeroBit := h.zeroBit
        zero := h.zero
        boot := h.boot
        dir := fun a ha => h.dir a (Finset.mem_of_mem_erase ha)
        table := fun a ha => h.table a (Finset.mem_of_mem_erase ha)
        kernelHalf := fun a ha => h.kernelHalf a (Finset.mem_of_mem_erase ha)
        small := fun a ha => h.small a (Finset.mem_of_mem_erase ha)
        page := fun ⟨a, i, j⟩ hs => h.page _ (hsub hs)
        counted := ?_
        one := h.one
        single := fun a i j i' j' f hs hs' => h.single a i j i' j' f (hsub hs) (hsub hs')
        cow := fun ⟨a, i, j⟩ hs => h.cow _ (hsub hs)
        marked := fun ⟨a, i, j⟩ hs => h.marked _ (hsub hs) }
    intro f hf
    have hrefs : userRefs m (pds.erase pd) f = userRefs m pds f := by
      apply refs_congr_support
      rintro ⟨a, i, j⟩ hs
      constructor
      · exact hsub
      · intro hmem
        obtain ⟨ha, hi, hj⟩ := mem_userSites.mp hmem
        refine mem_userSites.mpr ⟨Finset.mem_erase.mpr ⟨?_, ha⟩, hi, hj⟩
        rintro rfl
        exact hs (by simp [siteFrame, siteEntry, hempty i hi])
    rw [hrefs]
    exact h.counted f hf
  constructor
  · unfold Machine.freePage
    rw [hfree]
    refine hshrunk.retag (p := m.pmm.release pd) hlimit (h.ne_zero hkernel) ?_ ?_ ?_ ?_
      (by rintro ⟨⟩) rfl ?_ (by simp) (by simp)
    · intro heq
      have huse := h.boot
      exact hkernel _ (heq ▸ huse)
    · rw [hdir]
      rintro ⟨⟩
    · exact Finset.notMem_erase pd pds
    · intro a ha i hi hpres heq
      have htable := h.table a (Finset.mem_of_mem_erase ha) i hi hpres
      rw [heq, hdir] at htable
      cases htable
    · intro g hg
      simp [Function.update_of_ne hg]
  · unfold Machine.freePage
    rw [hfree]
    exact KernelFrame.retag hkernel (by rintro use ⟨⟩) rfl

end VmInv

end EnclaveOS
