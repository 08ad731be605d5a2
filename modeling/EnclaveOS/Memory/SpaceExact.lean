import EnclaveOS.Memory.SpaceClone

/-!
# SpaceExact - destroying what was built

A directory is built by `vmm_create_address_space` or
`vmm_clone_address_space`, and then by calls of `vmm_map_page_in_pd`, each with a
page that was just allocated.  A caller whose call fails gives the page back, as the page
fault handler and the loader do.
-/

namespace EnclaveOS

open PageWord RefCount

variable {m₀ m m' : Machine} {pds : Finset Nat} {own : Nat → Owner} {pd f : Nat} {held : List Nat}

/-- A call of `vmm_map_page_in_pd` on a user page that is not mapped. -/
structure MapCall (m : Machine) (pd virt : Nat) (flags : Word) : Prop where
  user : virt < kernelSpaceStart
  unmapped : siteEntry m (pd, dirIndex virt, tableIndex virt) = none
  low : IsLow flags
  present : hasFlag flags pagePresent = true

/-- The machine `m` and the directory `pd`, built from `m₀` with the
directories `pds`. -/
inductive Built (m₀ : Machine) (pds : Finset Nat) : Machine → Nat → Prop
  | create {m : Machine} {pd : Nat} (h : vmmCreateAddressSpace m₀ = (m, some pd)) : Built m₀ pds m pd
  | clone {m : Machine} {parent pd : Nat} (hparent : parent ∈ pds)
      (h : vmmCloneAddressSpace m₀ parent = (m, some pd)) : Built m₀ pds m pd
  | mapped {m m₁ m₂ : Machine} {pd virt : Nat} {phys flags : Word} (h : Built m₀ pds m pd)
      (hcall : MapCall m pd virt flags)
      (halloc : m.allocPage = (m₁, phys)) (hphys : phys ≠ 0#32)
      (hmap : vmmMapPageInPd m₁ pd virt phys flags = .mapped m₂) : Built m₀ pds m₂ pd
  | failed {m m₁ m₂ : Machine} {pd virt : Nat} {phys flags : Word} (h : Built m₀ pds m pd)
      (hcall : MapCall m pd virt flags)
      (halloc : m.allocPage = (m₁, phys)) (hphys : phys ≠ 0#32)
      (hmap : vmmMapPageInPd m₁ pd virt phys flags = .failed m₂) :
      Built m₀ pds (m₂.freePage phys) pd

/-- The page of a call comes from the pool into the hands of the caller. -/
theorem SpaceOwes.alloc (h : SpaceOwes m₀ m pd held) (hm₀ : PoolReady m₀) {m₁ : Machine}
    {phys : Word} (halloc : m.allocPage = (m₁, phys)) (hphys : phys ≠ 0#32) :
    ∃ f, phys = frameAddr f ∧ m₀.pmm.bitmap f = false ∧ f ∉ held ++ spaceFrames m pd ∧
      m₁.mem = m.mem ∧ SpaceOwes m₀ m₁ pd (f :: held) := by
  rcases m.allocPage_cases with hnone | ⟨f, hfree, hlimit, hsome⟩
  · rw [hnone] at halloc
    exact absurd (Prod.mk.inj halloc).2.symm hphys
  · rw [hsome] at halloc
    cases halloc
    obtain ⟨hfresh, hnot⟩ := h.owes.fresh hfree
    exact ⟨f, rfl, hfresh, hnot, rfl, h.take hm₀ hfree hlimit⟩

/-- The call maps the page, or leaves it to the caller. -/
theorem SpaceOwes.mapCall (h : SpaceOwes m₀ m pd []) (hm₀ : PoolReady m₀) {m₁ : Machine}
    {virt : Nat} {phys flags : Word} (hcall : MapCall m pd virt flags)
    (halloc : m.allocPage = (m₁, phys)) (hphys : phys ≠ 0#32) :
    (∃ m₂, vmmMapPageInPd m₁ pd virt phys flags = .mapped m₂ ∧ SpaceOwes m₀ m₂ pd []) ∨
    ∃ m₂, vmmMapPageInPd m₁ pd virt phys flags = .failed m₂ ∧
      SpaceOwes m₀ (m₂.freePage phys) pd [] := by
  obtain ⟨f, rfl, hfresh, hnot, hmem, howes⟩ := h.alloc hm₀ halloc hphys
  have hnone : siteEntry m₁ (pd, dirIndex virt, tableIndex virt) = none := by
    rw [siteEntry, Machine.pteAt, hmem]
    exact hcall.unmapped
  rcases howes.map hm₀ hcall.user hnone hcall.low hcall.present with hmapped | hfailed
  · exact Or.inl hmapped
  · have hframes : spaceFrames m₁ pd = spaceFrames m pd := by
      apply spaceFrames_congr
      · intro i _
        rw [hmem]
      · intro i _ _
        rw [hmem]
    have hone : m₁.pmm.refcounts f = 1 := by
      rw [howes.owes.count_fresh hm₀.sound hfresh, hframes, List.cons_append,
        List.count_cons_self, List.count_eq_zero_of_not_mem hnot]
    exact Or.inr ⟨m₁, hfailed, howes.giveBack hm₀ hone⟩

/-- The allocator owes the references of the directory that was built. -/
theorem Built.spaceOwes (hm₀ : PoolReady m₀) (hparents : ∀ parent ∈ pds, ParentReady m₀ parent)
    (h : Built m₀ pds m pd) : SpaceOwes m₀ m pd [] := by
  induction h with
  | create hcreate => exact (SpaceOwes.create hm₀ hcreate).1
  | clone hparent hclone =>
    rcases SpaceOwes.clone hm₀ (hparents _ hparent) with ⟨m', child, heq, howes⟩ | ⟨m', heq, -⟩
    · rw [heq] at hclone
      obtain ⟨rfl, hpd⟩ := Prod.mk.inj hclone
      cases hpd
      exact howes
    · rw [heq] at hclone
      cases (Prod.mk.inj hclone).2
  | mapped h hcall halloc hphys hmap ih =>
    rcases ih.mapCall hm₀ hcall halloc hphys with ⟨m₂, heq, howes⟩ | ⟨m₂, heq, -⟩
    · rw [hmap] at heq
      cases heq
      exact howes
    · rw [hmap] at heq
      cases heq
  | failed h hcall halloc hphys hmap ih =>
    rcases ih.mapCall hm₀ hcall halloc hphys with ⟨m₂, heq, -⟩ | ⟨m₂, heq, howes⟩
    · rw [hmap] at heq
      cases heq
    · rw [hmap] at heq
      cases heq
      exact howes

/-- The directory and its tables. -/
def IsTableFrame (m : Machine) (pd f : Nat) : Prop :=
  f = pd ∨ ∃ i < 768, isPresent (m.mem pd i) = true ∧ frameOf (m.mem pd i) = f

/-- The directory and its tables go back to the pool, and every other frame loses as many
references as user entries of the directory map it. -/
structure DestroyExact (m : Machine) (pd : Nat) (m' : Machine) : Prop where
  tables : ∀ f, IsTableFrame m pd f →
    m.pmm.bitmap f = true ∧ m'.pmm.bitmap f = false ∧ m'.pmm.refcounts f = 0
  counts : ∀ f, ¬IsTableFrame m pd f →
    m.pmm.refcounts f = m'.pmm.refcounts f + userRefs m {pd} f
  freed : ∀ f, ¬IsTableFrame m pd f → (m'.pmm.bitmap f = false ↔
    m.pmm.bitmap f = false ∨ 0 < userRefs m {pd} f ∧ m'.pmm.refcounts f = 0)
  mem : ∀ g, g ≠ pd → m'.mem g = m.mem g

/-- The references of a row to a page. -/
theorem count_rowFrames {i : Nat}
    (hf : isPresent (m.mem pd i) = true → frameOf (m.mem pd i) ≠ f) :
    (rowFrames m pd i).count f = refs (Finset.range 1024) (fun j => siteFrame m (pd, i, j)) f := by
  cases hpres : isPresent (m.mem pd i) with
  | false =>
    have hzero : refs (Finset.range 1024) (fun j => siteFrame m (pd, i, j)) f = 0 := by
      rw [refs_eq_zero_iff]
      intro j _
      simp [siteFrame, siteEntry, hpres]
    rw [rowFrames_of_absent hpres, hzero, List.count_nil]
  | true =>
    have hsites : refs (Finset.range 1024) (fun j => siteFrame m (pd, i, j)) f =
        refs (Finset.range 1024) (entryFrame m (frameOf (m.mem pd i))) f :=
      refs_congr (fun j _ => siteFrame_of_row hpres) f
    have htable : [frameOf (m.mem pd i)].count f = 0 := by
      simp [hf hpres]
    rw [rowFrames_of_present hpres, List.count_append, htable, hsites, tablePages,
      count_filterMap_range, Nat.add_zero]

/-- The references of a directory to a page are the user entries that map it. -/
theorem count_spaceFrames (hf : ¬IsTableFrame m pd f) :
    (spaceFrames m pd).count f = userRefs m {pd} f := by
  have hpd : [pd].count f = 0 := by
    have hne : pd ≠ f := fun heq => hf (Or.inl heq.symm)
    simp [hne]
  have hrows : ∀ i ∈ Finset.range 768, (rowFrames m pd i).count f =
      refs (Finset.range 1024) (fun j => siteFrame m (pd, i, j)) f := by
    intro i hi
    apply count_rowFrames
    intro hpres heq
    exact hf (Or.inr ⟨i, Finset.mem_range.mp hi, hpres, heq⟩)
  rw [spaceFrames, List.count_append, hpd, Nat.add_zero, count_flatMap_range,
    Finset.sum_congr rfl hrows, userRefs, userSites, refs_product, Finset.sum_singleton,
    refs_product]

/-- `vmm_destroy_address_space` is exact, and the allocator is as it was. -/
theorem SpaceOwes.destroyExact (h : SpaceOwes m₀ m pd []) (hm₀ : PoolReady m₀) :
    DestroyExact m pd (vmmDestroyAddressSpace m pd) ∧
      Pmm.Restored m₀.pmm (vmmDestroyAddressSpace m pd).pmm := by
  obtain ⟨howes, hmem⟩ := h.destroy hm₀
  have hrestored := howes.restored
  have hbefore : m₀.pmm.Owes m.pmm (spaceFrames m pd) := by
    have hall := h.owes
    rwa [List.nil_append] at hall
  refine ⟨⟨?_, ?_, ?_, hmem⟩, hrestored⟩
  · intro f hf
    have hfresh : m₀.pmm.bitmap f = false ∧ f ∈ spaceFrames m pd := by
      rcases hf with rfl | ⟨i, hi, hpres, rfl⟩
      · exact ⟨h.dirFresh, mem_spaceFrames_self⟩
      · exact ⟨h.tableFresh i hi hpres, mem_spaceFrames_table hi hpres⟩
    rw [hrestored.bitmap, hrestored.refcounts]
    exact ⟨hbefore.bit_set hfresh.2, hfresh.1, hm₀.sound.idle f hfresh.1⟩
  · intro f hf
    rw [hrestored.refcounts, ← count_spaceFrames hf]
    exact hbefore.count f
  · intro f hf
    rw [hrestored.refcounts, hrestored.bitmap, ← count_spaceFrames hf, List.count_pos_iff]
    constructor
    · intro hfree
      by_cases hmem' : f ∈ spaceFrames m pd
      · exact Or.inr ⟨hmem', hm₀.sound.idle f hfree⟩
      · refine Or.inl (Bool.eq_false_iff.mpr fun hbit => ?_)
        cases (hbefore.lent.used f).mp hbit with
        | inl hused => exact Bool.false_ne_true (hfree.symm.trans hused)
        | inr hlent => exact hmem' hlent
    · rintro (hfree | ⟨hlent, hzero⟩)
      · exact (hbefore.fresh hfree).1
      · refine Bool.eq_false_iff.mpr fun hbit => ?_
        have hpos := hbefore.live f hlent hbit
        omega

/-- The directories of the ownership invariant can be cloned. -/
theorem VmInv.parentReady (h : VmInv m pds own) (hpd : pd ∈ pds)
    (hroom : ∀ i < 768, ∀ j < 1024, ∀ f, siteFrame m (pd, i, j) = some f →
      m.pmm.refcounts f < 0xFFFF) : ParentReady m pd := by
  have hused : ∀ f, (∀ use, own f ≠ .kernel use) → own f ≠ .free → m.pmm.bitmap f = true :=
    fun f hkernel hfree => h.bit_set hfree (h.lt_limit hkernel)
  have hsite : ∀ {i j : Nat}, i < 768 → j < 1024 → (pd, i, j) ∈ userSites pds :=
    fun hi hj => mem_userSites.mpr ⟨hpd, hi, hj⟩
  constructor
  · constructor
    · exact h.small pd hpd
    · exact fun i hi hpres => (h.table_ne_dir hpd hi hpres hpd).symm
    · exact fun i hi k hk hpi hpk heq => (h.table_inj hpd hk hpk hpd hi hpi heq).2
  · apply hused pd
    · simp [h.dir pd hpd]
    · simp [h.dir pd hpd]
  · intro i hi hpres
    apply hused
    · simp [h.table pd hpd i hi hpres]
    · simp [h.table pd hpd i hi hpres]
  · intro i hi j hj f hf
    have hpage := h.page_of_frame (hsite hi hj) hf
    refine ⟨h.lt_limit ?_, (h.mapped_frame (hsite hi hj) hf).2, (h.counted f hpage).2⟩
    simp [hpage]
  · exact hroom
  · intro i hi j hj i' hi' j' hj' f hf hf'
    exact h.single pd i j i' j' f (hsite hi hj) (hsite hi' hj') hf hf'

theorem VmInv.poolReady (h : VmInv m pds own) (hsound : m.pmm.Sound) : PoolReady m where
  sound := hsound
  bootUsed hlimit := h.bit_set (by simp [h.boot]) hlimit

end EnclaveOS
