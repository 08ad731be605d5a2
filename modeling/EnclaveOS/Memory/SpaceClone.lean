import EnclaveOS.Memory.CloneSpec
import EnclaveOS.Memory.SpaceOwes

/-!
# SpaceClone - the references of a cloned address space

While `vmm_clone_address_space` fills a table, the allocator owes the table and the
pages entered so far; when the table is linked, they become references of the child.  So
the allocator owes exactly the references of the child after each row, also after the row
that finds no page for its table.
-/

namespace EnclaveOS

open PageWord

variable {m₀ m m' : Machine} {parent child pd i j t P C f : Nat} {rows l : List Nat}

theorem siteFrame_of_row (hpres : isPresent (m.mem pd i) = true) :
    siteFrame m (pd, i, j) = entryFrame m (frameOf (m.mem pd i)) j := by
  unfold siteFrame siteEntry entryFrame
  rw [Machine.pteAt]
  split_ifs <;> simp_all

theorem mem_tablePages : f ∈ tablePages m t ↔ ∃ j < 1024, entryFrame m t j = some f := by
  rw [tablePages, List.mem_filterMap]
  apply exists_congr
  intro j
  rw [List.mem_range]

/-- A directory that can be cloned: its user half is in use and maps each page once, and
no count is saturated. -/
structure ParentReady (m : Machine) (pd : Nat) : Prop where
  shape : SpaceShape m pd
  dirUsed : m.pmm.bitmap pd = true
  tableUsed : ∀ i < 768, isPresent (m.mem pd i) = true → m.pmm.bitmap (frameOf (m.mem pd i)) = true
  page : ∀ i < 768, ∀ j < 1024, ∀ f, siteFrame m (pd, i, j) = some f →
    f < m.pmm.maxPage ∧ m.pmm.bitmap f = true ∧ 0 < m.pmm.refcounts f
  room : ∀ i < 768, ∀ j < 1024, ∀ f, siteFrame m (pd, i, j) = some f → m.pmm.refcounts f < 0xFFFF
  single : ∀ i < 768, ∀ j < 1024, ∀ i' < 768, ∀ j' < 1024, ∀ f, siteFrame m (pd, i, j) = some f →
    siteFrame m (pd, i', j') = some f → i = i' ∧ j = j'

/-- `pmm_inc_ref` on a list of frames. -/
def addFrames (l : List Nat) (p : Pmm) : Pmm :=
  l.foldl (fun p f => pmmIncRef p (frameAddr f)) p

theorem cloneEntry_mem_of_ne {g : Nat} (hP : g ≠ P) (hC : g ≠ C) :
    (cloneEntry P C m j).mem g = m.mem g := by
  unfold cloneEntry
  cases hpres : isPresent (m.mem P j) with
  | false => simp [hpres]
  | true =>
    simp only [hpres, Bool.not_true, Bool.false_eq_true, if_false]
    rw [Machine.setWord_mem_of_ne hP, Machine.setWord_mem_of_ne hC]
    rfl

theorem cloneEntry_entry {k : Nat} (hk : k ≠ j) :
    (cloneEntry P C m j).mem P k = m.mem P k ∧ (cloneEntry P C m j).mem C k = m.mem C k := by
  unfold cloneEntry
  cases hpres : isPresent (m.mem P j) with
  | false => simp [hpres]
  | true =>
    simp only [hpres, Bool.not_true, Bool.false_eq_true, if_false]
    rw [Machine.setWord_mem, if_neg fun hc => hk hc.2, Machine.setWord_mem,
      if_neg fun hc => hk hc.2, Machine.setWord_mem, if_neg fun hc => hk hc.2, Machine.setWord_mem,
      if_neg fun hc => hk hc.2]
    exact ⟨rfl, rfl⟩

/-- The child's entry names the frame of the parent's entry. -/
theorem cloneEntry_child (hne : P ≠ C) (hempty : isPresent (m.mem C j) = false) :
    entryFrame (cloneEntry P C m j) C j = entryFrame m P j := by
  unfold cloneEntry
  cases hpres : isPresent (m.mem P j) with
  | false =>
    simp only [hpres, Bool.not_false, if_true]
    rw [entryFrame_of_absent hempty, entryFrame_of_absent hpres]
  | true =>
    simp only [hpres, Bool.not_true, Bool.false_eq_true, if_false]
    rw [entryFrame_congr (congrFun (Machine.setWord_mem_of_ne (Ne.symm hne) j _) j),
      entryFrame_of_present (by rw [Machine.setWord_mem_self]; exact isPresent_cowEntry hpres),
      Machine.setWord_mem_self, frameOf_cowEntry, entryFrame_of_present hpres]

theorem cloneEntry_pmm :
    (cloneEntry P C m j).pmm = addFrames ((entryFrame m P j).toList) m.pmm ∧
      (cloneEntry P C m j).bootPageDirectory = m.bootPageDirectory := by
  unfold cloneEntry
  cases hpres : isPresent (m.mem P j) with
  | false =>
    simp only [hpres, Bool.not_false, if_true]
    rw [entryFrame_of_absent hpres]
    exact ⟨rfl, trivial⟩
  | true =>
    simp only [hpres, Bool.not_true, Bool.false_eq_true, if_false]
    rw [entryFrame_of_present hpres, physOf_eq_frameAddr]
    exact ⟨rfl, rfl⟩

/-- The loop shares the pages of the parent's table. -/
theorem foldl_cloneEntry_pages (hne : P ≠ C) (hnodup : l.Nodup)
    (hempty : ∀ j ∈ l, isPresent (m.mem C j) = false) :
    (l.foldl (cloneEntry P C) m).pmm = addFrames (l.filterMap (entryFrame m P)) m.pmm ∧
      (l.foldl (cloneEntry P C) m).bootPageDirectory = m.bootPageDirectory ∧
      (∀ g, g ≠ P → g ≠ C → (l.foldl (cloneEntry P C) m).mem g = m.mem g) ∧
      (∀ j ∈ l, entryFrame (l.foldl (cloneEntry P C) m) C j = entryFrame m P j) ∧
      ∀ j ∉ l, (l.foldl (cloneEntry P C) m).mem C j = m.mem C j := by
  induction l generalizing m with
  | nil =>
    exact ⟨rfl, rfl, fun _ _ _ => rfl, fun _ hj => absurd hj List.not_mem_nil, fun _ _ => rfl⟩
  | cons j l ih =>
    obtain ⟨hjl, hnodup⟩ := List.nodup_cons.mp hnodup
    have hkj : ∀ k ∈ l, k ≠ j := by
      rintro k hk rfl
      exact hjl hk
    have hkeep : ∀ k, k ≠ j → entryFrame (cloneEntry P C m j) P k = entryFrame m P k :=
      fun k hk => entryFrame_congr (cloneEntry_entry hk).1
    obtain ⟨hpmm, hboot, hmem, hentries, hrest⟩ := ih (m := cloneEntry P C m j) hnodup fun k hk => by
      rw [(cloneEntry_entry (hkj k hk)).2]
      exact hempty k (List.mem_cons_of_mem j hk)
    obtain ⟨hpmm₁, hboot₁⟩ := cloneEntry_pmm (m := m) (P := P) (C := C) (j := j)
    rw [List.foldl_cons]
    refine ⟨?_, hboot.trans hboot₁, ?_, ?_, ?_⟩
    · have hsame : l.filterMap (entryFrame (cloneEntry P C m j) P) = l.filterMap (entryFrame m P) :=
        List.filterMap_congr fun k hk => hkeep k (hkj k hk)
      rw [hpmm, hsame, hpmm₁]
      cases hentry : entryFrame m P j with
      | none => rw [List.filterMap_cons_none hentry]; rfl
      | some f => rw [List.filterMap_cons_some hentry]; rfl
    · intro g hP hC
      rw [hmem g hP hC, cloneEntry_mem_of_ne hP hC]
    · intro k hk
      cases List.mem_cons.mp hk with
      | inl hkj' =>
        subst hkj'
        rw [entryFrame_congr (hrest k hjl)]
        exact cloneEntry_child hne (hempty k List.mem_cons_self)
      | inr hk => rw [hentries k hk, hkeep k (hkj k hk)]
    · intro k hk
      rw [hrest k fun hkl => hk (List.mem_cons_of_mem j hkl)]
      have hkj' : k ≠ j := by
        rintro rfl
        exact hk List.mem_cons_self
      exact (cloneEntry_entry hkj').2

/-- The state of the loop over the user half: the rows `rows` are still to come. -/
structure CloneState (m₀ m : Machine) (parent child : Nat) (rows : List Nat) : Prop where
  owes : SpaceOwes m₀ m child []
  parentDir : m.mem parent = m₀.mem parent
  empty : ∀ i ∈ rows, isPresent (m.mem child i) = false
  tables : ∀ i ∈ rows, isPresent (m₀.mem parent i) = true →
    m.mem (frameOf (m₀.mem parent i)) = m₀.mem (frameOf (m₀.mem parent i))
  unshared : ∀ i ∈ rows, ∀ j < 1024, ∀ f, siteFrame m₀ (parent, i, j) = some f →
    f ∉ spaceFrames m child

namespace CloneState

theorem tail (h : CloneState m₀ m parent child (i :: rows)) : CloneState m₀ m parent child rows where
  owes := h.owes
  parentDir := h.parentDir
  empty k hk := h.empty k (List.mem_cons_of_mem i hk)
  tables k hk := h.tables k (List.mem_cons_of_mem i hk)
  unshared k hk := h.unshared k (List.mem_cons_of_mem i hk)

theorem ne_of_used (h : CloneState m₀ m parent child rows) {g : Nat} (hg : m₀.pmm.bitmap g = true)
    (ht : m.pmm.bitmap t = false) : g ≠ t := by
  rintro rfl
  simp [(h.owes.owes.fresh ht).1] at hg

/-- The pages of a row of the parent. -/
theorem mem_row (hpres : isPresent (m₀.mem parent i) = true)
    (hf : f ∈ tablePages m₀ (frameOf (m₀.mem parent i))) :
    ∃ j < 1024, siteFrame m₀ (parent, i, j) = some f := by
  obtain ⟨j, hj, hentry⟩ := mem_tablePages.mp hf
  exact ⟨j, hj, (siteFrame_of_row hpres).trans hentry⟩

theorem nodup_row (hp : ParentReady m₀ parent) (hi : i < 768)
    (hpres : isPresent (m₀.mem parent i) = true) :
    (tablePages m₀ (frameOf (m₀.mem parent i))).Nodup := by
  have hpair : (List.range 1024).Pairwise fun j k =>
      ∀ f, entryFrame m₀ (frameOf (m₀.mem parent i)) j = some f →
        ∀ g, entryFrame m₀ (frameOf (m₀.mem parent i)) k = some g → f ≠ g := by
    refine List.Pairwise.imp_of_mem ?_ List.nodup_range
    rintro j k hj hk hjk f hf g hg rfl
    rw [← siteFrame_of_row hpres] at hf hg
    exact hjk (hp.single i hi j (List.mem_range.mp hj) i hi k (List.mem_range.mp hk) f hf hg).2
  exact List.pairwise_filterMap.mpr hpair

/-- The table of a row is filled while the caller holds it. -/
theorem fill (h : CloneState m₀ m parent child (i :: rows)) (hm₀ : PoolReady m₀)
    (hp : ParentReady m₀ parent) (hi : i < 768) (hpres : isPresent (m₀.mem parent i) = true)
    (hfree : m.pmm.bitmap t = false) (hlimit : t < m.pmm.maxPage)
    (hm' : (List.range 1024).foldl (cloneEntry (frameOf (m₀.mem parent i)) t)
      ((m.withPmm (m.pmm.take t)).clearFrame t) = m') :
    SpaceOwes m₀ m' child (tablePages m' t ++ [t]) ∧
      tablePages m' t = tablePages m₀ (frameOf (m₀.mem parent i)) ∧
      spaceFrames m' child = spaceFrames m child ∧
      ∀ g, g ≠ frameOf (m₀.mem parent i) → g ≠ t → m'.mem g = m.mem g := by
  set P := frameOf (m₀.mem parent i) with hP
  set m₁ := (m.withPmm (m.pmm.take t)).clearFrame t with hm₁
  have hPt : P ≠ t := h.ne_of_used (hp.tableUsed i hi hpres) hfree
  have hchildt : child ≠ t := by
    rintro rfl
    simp [h.owes.dir_used] at hfree
  have htables : ∀ k < 768, isPresent (m.mem child k) = true →
      frameOf (m.mem child k) ≠ P ∧ frameOf (m.mem child k) ≠ t := by
    intro k hk hpde
    constructor
    · intro heq
      have hfresh := h.owes.tableFresh k hk hpde
      rw [heq, hp.tableUsed i hi hpres] at hfresh
      cases hfresh
    · rintro rfl
      simp [h.owes.table_used hk hpde] at hfree
  have hchildP : child ≠ P := by
    intro heq
    have hfresh := h.owes.dirFresh
    rw [heq, hp.tableUsed i hi hpres] at hfresh
    cases hfresh
  -- the pages of the parent's table are those of the start
  have hmem₁ : ∀ g, g ≠ t → m₁.mem g = m.mem g := fun g hg => Machine.clearFrame_mem_of_ne hg
  have hpages : tablePages m₁ P = tablePages m₀ P :=
    tablePages_congr ((hmem₁ P hPt).trans (h.tables i List.mem_cons_self hpres))
  have hempty : ∀ j ∈ List.range 1024, isPresent (m₁.mem t j) = false := by
    intro j _
    rw [hm₁, Machine.clearFrame_mem, if_pos rfl]
    exact isPresent_zero
  have hloop := foldl_cloneEntry_pages hPt List.nodup_range hempty
  rw [hm'] at hloop
  obtain ⟨hpmm, hboot, hmem, hentries, -⟩ := hloop
  have howes₁ : SpaceOwes m₀ m₁ child [t] :=
    (h.owes.take hm₀ hfree hlimit).congrMem rfl rfl (hmem₁ child hchildt)
      fun k hk hpde => hmem₁ _ (htables k hk hpde).2
  have hfill : tablePages m' t = tablePages m₀ P := by
    rw [← hpages]
    exact List.filterMap_congr hentries
  have hall : ∀ g, g ≠ P → g ≠ t → m'.mem g = m.mem g :=
    fun g hgP hgt => (hmem g hgP hgt).trans (hmem₁ g hgt)
  have hframes₁ : spaceFrames m₁ child = spaceFrames m child :=
    spaceFrames_congr (fun k _ => congrFun (hmem₁ child hchildt) k)
      fun k hk hpde => hmem₁ _ (htables k hk hpde).2
  have hframes : spaceFrames m' child = spaceFrames m child :=
    spaceFrames_congr (fun k _ => congrFun (hall child hchildP hchildt) k)
      fun k hk hpde => hall _ (htables k hk hpde).1 (htables k hk hpde).2
  have hdir : m'.mem child = m.mem child := hall child hchildP hchildt
  refine ⟨⟨howes₁.shape.congr ?_, ?_, hboot.trans howes₁.boot, h.owes.dirFresh, ?_⟩, hfill,
    hframes, hall⟩
  · intro k _
    rw [hdir, hmem₁ child hchildt]
  · have hshared : m₀.pmm.Owes m'.pmm (tablePages m₀ P ++ (t :: spaceFrames m child)) := by
      have hheld := howes₁.owes
      rw [List.singleton_append, hframes₁] at hheld
      have hadded : m₀.pmm.Owes (addFrames (tablePages m₀ P) m₁.pmm)
          (tablePages m₀ P ++ (t :: spaceFrames m child)) := by
        apply hheld.incRefAll hm₀.sound (nodup_row hp hi hpres)
        intro f hf
        obtain ⟨j, hj, hsite⟩ := mem_row hpres hf
        obtain ⟨hmax, hbit, hpos⟩ := hp.page i hi j hj f hsite
        have hnot : f ∉ t :: spaceFrames m child := by
          rw [List.mem_cons, not_or]
          exact ⟨h.ne_of_used hbit hfree, h.unshared i List.mem_cons_self j hj f hsite⟩
        refine ⟨hheld.maxPage ▸ hmax, (hheld.lent.used f).mpr (Or.inl hbit), ?_, fun _ => hpos⟩
        rw [hheld.count f, List.count_eq_zero_of_not_mem hnot]
        exact hp.room i hi j hj f hsite
      rw [hpmm]
      have hsame : (List.range 1024).filterMap (entryFrame m₁ P) = tablePages m₀ P := hpages
      rw [hsame]
      exact hadded
    rw [hfill, hframes, List.append_assoc, List.singleton_append]
    exact hshared
  · intro k hk hpde
    rw [hdir] at hpde ⊢
    exact h.owes.tableFresh k hk hpde

/-- One directory entry of `vmm_clone_address_space`. -/
theorem row (h : CloneState m₀ m parent child (i :: rows)) (hm₀ : PoolReady m₀)
    (hp : ParentReady m₀ parent) (hi : i < 768) (hrows : ∀ k ∈ rows, k < 768) (hir : i ∉ rows) :
    cloneDirEntry parent child m i = (m, false) ∨
    ∃ m', cloneDirEntry parent child m i = (m', true) ∧ CloneState m₀ m' parent child rows := by
  unfold EnclaveOS.cloneDirEntry
  simp only [h.parentDir, hp.shape.small i hi, Bool.false_eq_true, if_false]
  cases hpres : isPresent (m₀.mem parent i) with
  | false =>
    simp only [Bool.not_false, if_true]
    exact Or.inr ⟨m, rfl, h.tail⟩
  | true =>
    simp only [Bool.not_true, Bool.false_eq_true, if_false]
    rcases m.allocPage_cases with halloc | ⟨t, hfree, hlimit, halloc⟩
    · rw [halloc]
      exact Or.inl rfl
    have hmax : t < 1048576 := lt_of_lt_of_le hlimit (h.owes.owes.sound hm₀.sound).limit
    have hnz : frameAddr t ≠ 0#32 := by
      rw [ne_eq, frameAddr_eq_zero_iff hmax]
      rintro rfl
      simp [(h.owes.owes.sound hm₀.sound).zeroBit] at hfree
    rw [halloc]
    dsimp only
    rw [if_neg hnz, frameOf_frameAddr hmax]
    generalize hm₂ : (List.range 1024).foldl (cloneEntry (frameOf (m₀.mem parent i)) t)
      ((m.withPmm (m.pmm.take t)).clearFrame t) = m₂
    refine Or.inr ⟨_, rfl, ?_⟩
    obtain ⟨howes₂, hpages, hframes, hmem⟩ := h.fill hm₀ hp hi hpres hfree hlimit hm₂
    have hframe := frameOf_tableEntry hmax
    have hfresh := (h.owes.owes.fresh hfree).1
    have hchildt : child ≠ t := by
      rintro rfl
      simp [h.owes.dir_used] at hfree
    have hchildP : child ≠ frameOf (m₀.mem parent i) := by
      intro heq
      have hdir := h.owes.dirFresh
      rw [heq, hp.tableUsed i hi hpres] at hdir
      cases hdir
    have hparent : parent ≠ child := by
      rintro rfl
      have hdir := h.owes.dirFresh
      rw [hp.dirUsed] at hdir
      cases hdir
    have hdir₂ : m₂.mem child = m.mem child := hmem child hchildP hchildt
    have hlinked : SpaceOwes m₀ (m₂.setWord child i (frameAddr t ||| pagePresent ||| pageWrite |||
        pageUser)) child [] := by
      refine SpaceOwes.link (by rwa [List.append_nil]) hi ?_ hfresh (Ne.symm hchildt) ?_
        (isPresent_tableEntry _) hframe (pagePs_tableEntry hmax)
      · rw [hdir₂]
        exact h.empty i List.mem_cons_self
      · intro k hk hpde
        rw [hdir₂] at hpde ⊢
        rintro rfl
        simp [h.owes.table_used hk hpde] at hfree
    refine ⟨hlinked, ?_, ?_, ?_, ?_⟩
    · rw [Machine.setWord_mem_of_ne hparent, hmem parent
        (Ne.symm (hp.shape.apart i hi hpres)) (h.ne_of_used hp.dirUsed hfree)]
      exact h.parentDir
    · intro k hk
      have hki : k ≠ i := by
        rintro rfl
        exact hir hk
      rw [Machine.setWord_mem, if_neg fun hc => hki hc.2, hdir₂]
      exact h.empty k (List.mem_cons_of_mem i hk)
    · intro k hk hpde
      have hki : k ≠ i := by
        rintro rfl
        exact hir hk
      have hused := hp.tableUsed k (hrows k hk) hpde
      have hkc : frameOf (m₀.mem parent k) ≠ child := by
        intro heq
        rw [heq, h.owes.dirFresh] at hused
        cases hused
      rw [Machine.setWord_mem_of_ne hkc, hmem _ (fun heq => hki
        (hp.shape.inj k (hrows k hk) i hi hpde hpres heq)) (h.ne_of_used hused hfree)]
      exact h.tables k (List.mem_cons_of_mem i hk) hpde
    · intro k hk j hj f hsite hf
      have hki : k ≠ i := by
        rintro rfl
        exact hir hk
      have hperm := spaceFrames_link (w := frameAddr t ||| pagePresent ||| pageWrite ||| pageUser)
        howes₂.shape hi (by rw [hdir₂]; exact h.empty i List.mem_cons_self)
        (isPresent_tableEntry _) (by rw [hframe]; exact Ne.symm hchildt)
      rw [hperm.mem_iff, hframe, hpages, hframes, List.mem_append, List.mem_append] at hf
      rcases hf with (hf | hf) | hf
      · obtain ⟨b, hb, hsite'⟩ := mem_row hpres hf
        exact hki (hp.single k (hrows k hk) j hj i hi b hb f hsite hsite').1
      · have hbit := (hp.page k (hrows k hk) j hj f hsite).2.1
        exact h.ne_of_used hbit hfree (List.mem_singleton.mp hf)
      · exact h.unshared k (List.mem_cons_of_mem i hk) j hj f hsite hf

/-- The loop over the user half. -/
theorem loop (h : CloneState m₀ m parent child rows) (hm₀ : PoolReady m₀)
    (hp : ParentReady m₀ parent) (hrows : ∀ k ∈ rows, k < 768) (hnodup : rows.Nodup) :
    SpaceOwes m₀ (cloneUserHalf parent child rows m).1 child [] := by
  induction rows generalizing m with
  | nil => exact h.owes
  | cons i rows ih =>
    obtain ⟨hir, hnodup⟩ := List.nodup_cons.mp hnodup
    have hrest : ∀ k ∈ rows, k < 768 := fun k hk => hrows k (List.mem_cons_of_mem i hk)
    rw [EnclaveOS.cloneUserHalf]
    rcases h.row hm₀ hp (hrows i List.mem_cons_self) hrest hir with hfail | ⟨m', hstep, hstate⟩
    · rw [hfail]
      exact h.owes
    · rw [hstep]
      exact ih hstate hrest hnodup

end CloneState

/-- `vmm_clone_address_space`: the allocator owes the references of the clone, or
nothing. -/
theorem SpaceOwes.clone (hm : PoolReady m) (hp : ParentReady m parent) :
    (∃ m' child, vmmCloneAddressSpace m parent = (m', some child) ∧ SpaceOwes m m' child []) ∨
    ∃ m', vmmCloneAddressSpace m parent = (m', none) ∧ m.pmm.Owes m'.pmm [] := by
  rw [vmmCloneAddressSpace_eq]
  generalize hcreate : vmmCreateAddressSpace m = res
  obtain ⟨m₁, child | child⟩ := res
  · rw [SpaceOwes.createFailed hm hcreate]
    exact Or.inr ⟨m, rfl, .refl m.pmm⟩
  · obtain ⟨howes, hmem, hempty⟩ := SpaceOwes.create hm hcreate
    have hchild : ∀ g, m.pmm.bitmap g = true → g ≠ child := by
      rintro g hg rfl
      simp [howes.dirFresh] at hg
    have habsent : ∀ i < 768, isPresent (m₁.mem child i) = false := by
      intro i hi
      rw [hempty i hi]
      exact isPresent_zero
    have hstart : CloneState m m₁ parent child (List.range 768) := by
      refine ⟨howes, hmem parent (hchild parent hp.dirUsed), ?_, ?_, ?_⟩
      · exact fun i hi => habsent i (List.mem_range.mp hi)
      · exact fun i hi hpres => hmem _ (hchild _ (hp.tableUsed i (List.mem_range.mp hi) hpres))
      · intro i hi j hj f hsite
        rw [spaceFrames_empty habsent, List.mem_singleton]
        exact hchild f (hp.page i (List.mem_range.mp hi) j hj f hsite).2.1
    have hloop := hstart.loop hm hp (fun k hk => List.mem_range.mp hk) List.nodup_range
    dsimp only
    generalize cloneUserHalf parent child (List.range 768) m₁ = out at hloop ⊢
    obtain ⟨m₂, ok⟩ := out
    cases ok with
    | true => exact Or.inl ⟨m₂, child, rfl, hloop⟩
    | false => exact Or.inr ⟨_, rfl, (hloop.destroy hm).1⟩

end EnclaveOS
