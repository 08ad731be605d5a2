import EnclaveOS.Memory.SpaceKept

/-!
# CloneSpec - cloning an address space

`vmm_clone_address_space` shares every user page of the parent with the
child.  The table of a child row is filled before it is linked; the proof links
it first, which commutes with filling it, so that each entry is one step of the
ownership invariant.
-/

namespace EnclaveOS

open PageWord RefCount

theorem Machine.setWord_comm (m : Machine) {f g : Nat} (hne : f ≠ g) (i j : Nat) (a b : Word) :
    (m.setWord f i a).setWord g j b = (m.setWord g j b).setWord f i a := by
  simp only [Machine.setWord, Function.update_of_ne hne, Function.update_of_ne (Ne.symm hne)]
  rw [Function.update_comm hne]

theorem cloneEntry_eq (m : Machine) (parent childPt i j : Nat) :
    cloneEntry (frameOf (m.mem parent i)) childPt m j =
      if isPresent (m.pteAt parent i j) then
        ((m.incRef (physOf (m.pteAt parent i j))).setWord childPt j
          (cowEntry (m.pteAt parent i j))).setWord (frameOf (m.mem parent i)) j
          (cowEntry (m.pteAt parent i j))
      else m := by
  simp only [cloneEntry, Machine.pteAt]
  by_cases hpte : isPresent (m.mem (frameOf (m.mem parent i)) j) = true <;> simp [hpte]

/-- Sharing an entry commutes with writes to other frames. -/
theorem cloneEntry_setWord (m : Machine) {parentPt childPt d : Nat} (hp : d ≠ parentPt)
    (hc : d ≠ childPt) (j k : Nat) (w : Word) :
    cloneEntry parentPt childPt (m.setWord d k w) j =
      (cloneEntry parentPt childPt m j).setWord d k w := by
  have hread : (m.setWord d k w).mem parentPt = m.mem parentPt :=
    Machine.setWord_mem_of_ne (Ne.symm hp) k w
  simp only [cloneEntry, hread]
  split_ifs
  · rfl
  · rw [Machine.setWord_comm _ (Ne.symm hp), Machine.setWord_comm _ (Ne.symm hc)]
    rfl

theorem foldl_cloneEntry_setWord (m : Machine) {parentPt childPt d : Nat} (hp : d ≠ parentPt)
    (hc : d ≠ childPt) (k : Nat) (w : Word) (l : List Nat) :
    l.foldl (cloneEntry parentPt childPt) (m.setWord d k w) =
      (l.foldl (cloneEntry parentPt childPt) m).setWord d k w := by
  induction l generalizing m with
  | nil => rfl
  | cons j l ih => rw [List.foldl_cons, List.foldl_cons, cloneEntry_setWord m hp hc, ih]

namespace VmInv

variable {m : Machine} {pds : Finset Nat} {own : Nat → Owner} {parent child : Nat}

/-- The child maps a part of what the parent maps, at the same places. -/
def Sub (m : Machine) (parent child : Nat) : Prop :=
  ∀ i < 768, ∀ j < 1024, ∀ f, siteFrame m (child, i, j) = some f →
    siteFrame m (parent, i, j) = some f

/-- What sharing one entry does besides keeping the invariant. -/
structure Shared (m : Machine) (pds : Finset Nat) (parent child i j : Nat) (m' : Machine) :
    Prop where
  mem : ∀ g, g ≠ frameOf (m.mem parent i) → g ≠ frameOf (m.mem child i) → m'.mem g = m.mem g
  entries : ∀ s ∈ userSites pds, s ≠ (parent, i, j) → s ≠ (child, i, j) →
    siteEntry m' s = siteEntry m s
  parentEntry : siteEntry m' (parent, i, j) = (siteEntry m (parent, i, j)).map cowEntry
  childEntry : siteEntry m' (child, i, j) = (siteEntry m (parent, i, j)).map cowEntry
  refcounts : ∀ f, siteFrame m (parent, i, j) ≠ some f → m'.pmm.refcounts f = m.pmm.refcounts f

theorem Shared.parentFrame {i j : Nat} {m' : Machine} (h : Shared m pds parent child i j m') :
    siteFrame m' (parent, i, j) = siteFrame m (parent, i, j) := by
  rw [siteFrame, siteFrame, h.parentEntry, map_frameOf_cowEntry]

theorem Shared.childFrame {i j : Nat} {m' : Machine} (h : Shared m pds parent child i j m') :
    siteFrame m' (child, i, j) = siteFrame m (parent, i, j) := by
  rw [siteFrame, siteFrame, h.childEntry, map_frameOf_cowEntry]

/-- Sharing one page-table entry of the parent with the child. -/
theorem cloneEntry (h : VmInv m pds own) {i j : Nat} (hparent : parent ∈ pds)
    (hchild : child ∈ pds) (hne : parent ≠ child) (hi : i < 768) (hj : j < 1024)
    (hpp : isPresent (m.mem parent i) = true) (hcp : isPresent (m.mem child i) = true)
    (hempty : isPresent (m.pteAt child i j) = false) (hsub : Sub m parent child)
    (hroom : ∀ f, siteFrame m (parent, i, j) = some f → m.pmm.refcounts f < 0xFFFF) :
    VmInv (cloneEntry (frameOf (m.mem parent i)) (frameOf (m.mem child i)) m j) pds own ∧
      KernelFrame m own
        (EnclaveOS.cloneEntry (frameOf (m.mem parent i)) (frameOf (m.mem child i)) m j) own ∧
      Shared m pds parent child i j
        (EnclaveOS.cloneEntry (frameOf (m.mem parent i)) (frameOf (m.mem child i)) m j) := by
  have hsp : (parent, i, j) ∈ userSites pds := mem_userSites.mpr ⟨hparent, hi, hj⟩
  have hsc : (child, i, j) ∈ userSites pds := mem_userSites.mpr ⟨hchild, hi, hj⟩
  have hcnone : siteEntry m (child, i, j) = none := siteEntry_eq_none fun _ => hempty
  have htables : frameOf (m.mem parent i) ≠ frameOf (m.mem child i) := by
    intro heq
    exact hne (h.table_inj hchild hi hcp hparent hi hpp heq).1
  have hpne : ∀ a ∈ pds, a ≠ frameOf (m.mem parent i) :=
    fun a ha => h.table_ne_dir hparent hi hpp ha
  rw [cloneEntry_eq]
  cases hpte : isPresent (m.pteAt parent i j) with
  | false =>
    rw [if_neg (by simp)]
    have hpnone : siteEntry m (parent, i, j) = none := siteEntry_eq_none fun _ => hpte
    refine ⟨h, KernelFrame.refl m own, fun _ _ _ => rfl, fun _ _ _ _ => rfl, ?_, ?_,
      fun _ _ => rfl⟩
    · rw [hpnone]
      rfl
    · rw [hpnone, hcnone]
      rfl
  | true =>
    rw [if_pos rfl]
    set pte := m.pteAt parent i j with hptedef
    set f := frameOf pte with hf
    have hentry : siteEntry m (parent, i, j) = some pte :=
      siteEntry_eq_some.mpr ⟨hpp, hpte, rfl⟩
    have hsite : siteFrame m (parent, i, j) = some f := siteFrame_of_entry hentry
    have hown : own f = .page := h.page _ hsp _ hentry
    have hlimit : f < m.pmm.maxPage := h.lt_limit (by rw [hown]; rintro use ⟨⟩)
    have hinc : m.incRef (physOf pte) = m.withPmm (m.pmm.setRef f (m.pmm.refcounts f + 1)) := by
      unfold Machine.incRef
      rw [physOf_eq_frameAddr, pmmIncRef_frameAddr _ (lt_of_lt_of_le hlimit h.limit),
        if_pos ⟨hlimit, hroom f hsite⟩]
    -- first the parent's entry is marked
    obtain ⟨h₁, hk₁⟩ := h.setFlags (w := cowEntry pte) hparent hi hj hpp hpte
      (isPresent_cowEntry hpte) (frameOf_cowEntry pte)
      (fun hplain => absurd hplain (by simp [pageCow_cowEntry]))
      (fun _ => pageWrite_cowEntry pte)
    set m₁ := m.setWord (frameOf (m.mem parent i)) j (cowEntry pte) with hm₁
    have hchild₁ : m₁.mem child = m.mem child := Machine.setWord_mem_of_ne (hpne child hchild) _ _
    have hentry₁ : ∀ s ∈ userSites pds, siteEntry m₁ s =
        Function.update (siteEntry m) (parent, i, j) (some (cowEntry pte)) s := by
      intro s hs
      rw [hm₁, h.siteEntry_setPte hparent hi hpp j _ hs, if_pos (isPresent_cowEntry hpte)]
    have hframe₁ : ∀ s ∈ userSites pds, siteFrame m₁ s = siteFrame m s := by
      intro s hs
      rw [siteFrame, hentry₁ s hs]
      by_cases hsame : s = (parent, i, j)
      · rw [hsame, Function.update_self, hsite]
        simp [hf]
      · rw [Function.update_of_ne hsame]
        rfl
    -- every mapping of the page is marked now, so it can be shared
    have hshared : ∀ s ∈ userSites pds, ∀ v, siteEntry m₁ s = some v → frameOf v = f →
        hasFlag v pageCow = true := by
      intro s hs v hv hvf
      by_contra hplain
      rw [Bool.not_eq_true] at hplain
      have hone : m₁.pmm.refcounts f = 1 := hvf ▸ h₁.cow s hs v hv hplain
      have hown₁ := h₁.counted f hown
      have hsame : s = (parent, i, j) :=
        site_unique (le_of_eq (hown₁.1.symm.trans hone)) hs hsp
          (hvf ▸ siteFrame_of_entry hv) ((hframe₁ _ hsp).trans hsite)
      rw [hsame, hentry₁ _ hsp, Function.update_self, Option.some.injEq] at hv
      rw [← hv, pageCow_cowEntry] at hplain
      cases hplain
    have hempty₁ : isPresent (m₁.pteAt child i j) = false := by
      rw [Machine.pteAt, hchild₁, hm₁, Machine.setWord_mem_of_ne (Ne.symm htables)]
      exact hempty
    obtain ⟨h₂, hk₂⟩ := h₁.share (w := cowEntry pte) hchild hi hj (by rw [hchild₁]; exact hcp)
      hempty₁ hown (isPresent_cowEntry hpte) (frameOf_cowEntry pte) (pageCow_cowEntry pte)
      (pageWrite_cowEntry pte) hshared (by
        intro i' j' hs' hmap
        obtain ⟨-, hi', hj'⟩ := mem_userSites.mp hs'
        rw [hframe₁ _ hs'] at hmap
        obtain ⟨rfl, rfl⟩ := h.single parent i' j' i j f
          (mem_userSites.mpr ⟨hparent, hi', hj'⟩) hsp (hsub i' hi' j' hj' f hmap) hsite
        rw [siteFrame, hcnone] at hmap
        cases hmap)
    rw [hchild₁] at h₂ hk₂
    have hfinal : ((m.incRef (physOf pte)).setWord (frameOf (m.mem child i)) j
        (cowEntry pte)).setWord (frameOf (m.mem parent i)) j (cowEntry pte) =
        (m₁.withPmm (m₁.pmm.setRef f (m₁.pmm.refcounts f + 1))).setWord
          (frameOf (m.mem child i)) j (cowEntry pte) := by
      rw [hinc, Machine.setWord_comm _ (Ne.symm htables)]
      rfl
    rw [hfinal]
    have hentries₂ : ∀ s ∈ userSites pds, siteEntry
        ((m₁.withPmm (m₁.pmm.setRef f (m₁.pmm.refcounts f + 1))).setWord
          (frameOf (m.mem child i)) j (cowEntry pte)) s =
        Function.update (siteEntry m₁) (child, i, j) (some (cowEntry pte)) s := by
      intro s hs
      have hset := h₁.siteEntry_setPte (i := i) hchild hi
        (by rw [hchild₁]; exact hcp) j (cowEntry pte) hs
      rw [hchild₁, if_pos (isPresent_cowEntry hpte)] at hset
      exact hset
    refine ⟨h₂, hk₁.trans hk₂, ?_, ?_, ?_, ?_, ?_⟩
    · intro g hg hg'
      rw [Machine.setWord_mem_of_ne hg']
      exact Machine.setWord_mem_of_ne hg _ _
    · intro s hs hsp' hsc'
      rw [hentries₂ s hs, Function.update_of_ne hsc', hentry₁ s hs, Function.update_of_ne hsp']
    · have hnesite : (parent, i, j) ≠ (child, i, j) := by
        rintro ⟨⟩
        exact hne rfl
      rw [hentries₂ _ hsp, Function.update_of_ne hnesite, hentry₁ _ hsp, Function.update_self,
        hentry]
      rfl
    · rw [hentries₂ _ hsc, Function.update_self, hentry]
      rfl
    · intro g hg
      have hgf : g ≠ f := by
        rintro rfl
        exact hg hsite
      exact Function.update_of_ne hgf _ _

theorem pteAt_of_siteEntry_none {m : Machine} {pd i j : Nat} (hpde : isPresent (m.mem pd i) = true)
    (hnone : siteEntry m (pd, i, j) = none) : isPresent (m.pteAt pd i j) = false := by
  rw [← Bool.not_eq_true]
  intro hpte
  rw [siteEntry_eq_some.mpr ⟨hpde, hpte, rfl⟩] at hnone
  cases hnone

/-- What filling a part of row `i` of the child does besides keeping the
invariant. -/
structure RowShared (m : Machine) (pds : Finset Nat) (parent child i : Nat) (l : List Nat)
    (m' : Machine) : Prop where
  sub : Sub m' parent child
  mem : ∀ g, g ≠ frameOf (m.mem parent i) → g ≠ frameOf (m.mem child i) → m'.mem g = m.mem g
  entries : ∀ s ∈ userSites pds, s.2.1 ≠ i → siteEntry m' s = siteEntry m s
  others : ∀ s ∈ userSites pds, s.1 ≠ parent → s.1 ≠ child → siteEntry m' s = siteEntry m s
  parentEntry : ∀ j < 1024, EntryKept (siteEntry m (parent, i, j)) (siteEntry m' (parent, i, j))
  childEntry : ∀ j < 1024, siteEntry m' (child, i, j) = siteEntry m (child, i, j) ∨
    siteEntry m' (child, i, j) = (siteEntry m (parent, i, j)).map cowEntry
  refcounts : ∀ f, (∀ j ∈ l, siteFrame m (parent, i, j) ≠ some f) →
    m'.pmm.refcounts f = m.pmm.refcounts f

/-- The loop over the entries of a linked row. -/
theorem foldl_cloneEntry (h : VmInv m pds own) {i P C : Nat} {l : List Nat}
    (hparent : parent ∈ pds) (hchild : child ∈ pds) (hne : parent ≠ child) (hi : i < 768)
    (hpp : isPresent (m.mem parent i) = true) (hcp : isPresent (m.mem child i) = true)
    (hP : frameOf (m.mem parent i) = P) (hC : frameOf (m.mem child i) = C)
    (hl : ∀ j ∈ l, j < 1024) (hnodup : l.Nodup)
    (hempty : ∀ j ∈ l, siteEntry m (child, i, j) = none) (hsub : Sub m parent child)
    (hroom : ∀ j ∈ l, ∀ f, siteFrame m (parent, i, j) = some f → m.pmm.refcounts f < 0xFFFF) :
    VmInv (l.foldl (EnclaveOS.cloneEntry P C) m) pds own ∧
      KernelFrame m own (l.foldl (EnclaveOS.cloneEntry P C) m) own ∧
      RowShared m pds parent child i l (l.foldl (EnclaveOS.cloneEntry P C) m) := by
  induction l generalizing m with
  | nil =>
    exact ⟨h, KernelFrame.refl m own, hsub, fun _ _ _ => rfl, fun _ _ _ => rfl,
      fun _ _ _ _ => rfl, fun _ _ => .refl _, fun _ _ => Or.inl rfl, fun _ _ => rfl⟩
  | cons j l ih =>
    obtain ⟨hjl, hnodup⟩ := List.nodup_cons.mp hnodup
    have hj : j < 1024 := hl j List.mem_cons_self
    have hl' : ∀ k ∈ l, k < 1024 := fun k hk => hl k (List.mem_cons_of_mem _ hk)
    have hkj : ∀ k ∈ l, k ≠ j := by
      rintro k hk rfl
      exact hjl hk
    have hsite : ∀ {a k : Nat}, a ∈ pds → k < 1024 → (a, i, k) ∈ userSites pds :=
      fun ha hk => mem_userSites.mpr ⟨ha, hi, hk⟩
    obtain ⟨h₁, hk₁, hs₁⟩ := h.cloneEntry hparent hchild hne hi hj hpp hcp
      (pteAt_of_siteEntry_none hcp (hempty j List.mem_cons_self)) hsub
      (hroom j List.mem_cons_self)
    rw [hP, hC] at h₁ hk₁ hs₁
    set m₁ := EnclaveOS.cloneEntry P C m j with hm₁
    have hdir : ∀ a ∈ pds, m₁.mem a = m.mem a := fun a ha =>
      hs₁.mem a (h.table_ne_dir hparent hi hpp ha) (h.table_ne_dir hchild hi hcp ha)
    have hkeep : ∀ {a k : Nat}, a ∈ pds → k < 1024 → k ≠ j →
        siteEntry m₁ (a, i, k) = siteEntry m (a, i, k) := by
      intro a k ha hk hne'
      apply hs₁.entries _ (hsite ha hk) <;> rintro ⟨⟩ <;> exact hne' rfl
    have hparent₁ : ∀ k < 1024, siteFrame m₁ (parent, i, k) = siteFrame m (parent, i, k) := by
      intro k hk
      by_cases hsame : k = j
      · rw [hsame]
        exact hs₁.parentFrame
      · exact siteFrame_congr (hkeep hparent hk hsame)
    have hsub₁ : Sub m₁ parent child := by
      intro a ha b hb f hf
      by_cases hsame : a = i ∧ b = j
      · obtain ⟨rfl, rfl⟩ := hsame
        rw [hs₁.parentFrame, ← hs₁.childFrame]
        exact hf
      · have hkeep' : ∀ d ∈ pds, siteEntry m₁ (d, a, b) = siteEntry m (d, a, b) := by
          intro d hd
          apply hs₁.entries _ (mem_userSites.mpr ⟨hd, ha, hb⟩) <;> rintro ⟨⟩ <;>
            exact hsame ⟨rfl, rfl⟩
        rw [siteFrame_congr (hkeep' parent hparent)]
        rw [siteFrame_congr (hkeep' child hchild)] at hf
        exact hsub a ha b hb f hf
    obtain ⟨h₂, hk₂, hs₂⟩ := ih h₁ (by rw [hdir parent hparent]; exact hpp)
      (by rw [hdir child hchild]; exact hcp) (by rw [hdir parent hparent]; exact hP)
      (by rw [hdir child hchild]; exact hC) hl' hnodup
      (fun k hk => (hkeep hchild (hl' k hk) (hkj k hk)).trans
        (hempty k (List.mem_cons_of_mem _ hk)))
      hsub₁ (by
        intro k hk f hf
        rw [hparent₁ k (hl' k hk)] at hf
        have hother : siteFrame m (parent, i, j) ≠ some f := fun hjf =>
          hkj k hk (h.single parent i k i j f (hsite hparent (hl' k hk)) (hsite hparent hj) hf
            hjf).2
        rw [hs₁.refcounts f hother]
        exact hroom k (List.mem_cons_of_mem _ hk) f hf)
    rw [List.foldl_cons]
    refine ⟨h₂, hk₁.trans hk₂, hs₂.sub, ?_, ?_, ?_, ?_, ?_, ?_⟩
    · intro g hg hg'
      rw [← hs₁.mem g hg hg']
      exact hs₂.mem g (by rwa [hdir parent hparent]) (by rwa [hdir child hchild])
    · intro s hs hsi
      rw [hs₂.entries s hs hsi]
      apply hs₁.entries s hs <;> rintro rfl <;> exact hsi rfl
    · intro s hs hsp hsc
      rw [hs₂.others s hs hsp hsc]
      apply hs₁.entries s hs
      · rintro rfl
        exact hsp rfl
      · rintro rfl
        exact hsc rfl
    · intro k hk
      refine .trans ?_ (hs₂.parentEntry k hk)
      by_cases hsame : k = j
      · rw [hsame]
        exact Or.inr hs₁.parentEntry
      · exact Or.inl (hkeep hparent hk hsame)
    · intro k hk
      by_cases hsame : k = j
      · subst hsame
        right
        rcases hs₂.childEntry k hk with hchild₂ | hchild₂
        · rw [hchild₂, hs₁.childEntry]
        · rw [hchild₂, hs₁.parentEntry, map_cowEntry_cowEntry]
      · have hentry := hs₂.childEntry k hk
        rwa [hkeep hchild hk hsame, hkeep hparent hk hsame] at hentry
    · intro f hf
      rw [hs₂.refcounts f fun k hk => by
          rw [hparent₁ k (hl' k hk)]
          exact hf k (List.mem_cons_of_mem _ hk),
        hs₁.refcounts f (hf j List.mem_cons_self)]

/-- What cloning does to the entries and to the pages. -/
structure CloneKept (m : Machine) (pds : Finset Nat) (parent child : Nat) (m' : Machine) :
    Prop where
  others : ∀ s ∈ userSites pds, s.1 ≠ parent → s.1 ≠ child → siteEntry m' s = siteEntry m s
  parentEntry : ∀ i < 768, ∀ j < 1024,
    EntryKept (siteEntry m (parent, i, j)) (siteEntry m' (parent, i, j))
  childEntry : ∀ i < 768, ∀ j < 1024, siteEntry m' (child, i, j) = siteEntry m (child, i, j) ∨
    siteEntry m' (child, i, j) = (siteEntry m (parent, i, j)).map cowEntry
  pages : ∀ s ∈ userSites pds, s.1 ≠ child → ∀ f, siteFrame m s = some f → m'.mem f = m.mem f

namespace CloneKept

variable {m' m'' : Machine}

theorem refl (m : Machine) (pds : Finset Nat) (parent child : Nat) :
    CloneKept m pds parent child m :=
  ⟨fun _ _ _ _ => rfl, fun _ _ _ _ => .refl _, fun _ _ _ _ => Or.inl rfl, fun _ _ _ _ _ => rfl⟩

theorem frame (h : CloneKept m pds parent child m') {s : Site} (hs : s ∈ userSites pds)
    (hsc : s.1 ≠ child) : siteFrame m' s = siteFrame m s := by
  obtain ⟨a, i, j⟩ := s
  obtain ⟨-, hi, hj⟩ := mem_userSites.mp hs
  by_cases hsp : a = parent
  · subst hsp
    exact (h.parentEntry i hi j hj).frame
  · exact siteFrame_congr (h.others _ hs hsp hsc)

theorem trans (h : CloneKept m pds parent child m') (h' : CloneKept m' pds parent child m'') :
    CloneKept m pds parent child m'' where
  others s hs hsp hsc := (h'.others s hs hsp hsc).trans (h.others s hs hsp hsc)
  parentEntry i hi j hj := (h.parentEntry i hi j hj).trans (h'.parentEntry i hi j hj)
  childEntry i hi j hj := by
    rcases h'.childEntry i hi j hj with hchild | hchild
    · rw [hchild]
      exact h.childEntry i hi j hj
    · right
      rcases h.parentEntry i hi j hj with hparent | hparent
      · rw [hchild, hparent]
      · rw [hchild, hparent, map_cowEntry_cowEntry]
  pages s hs hsc f hf :=
    (h'.pages s hs hsc f ((h.frame hs hsc).trans hf)).trans (h.pages s hs hsc f hf)

/-- The user halves of the other directories stay. -/
theorem space (h : CloneKept m (insert child pds) parent child m') {pd : Nat} (hpd : pd ∈ pds)
    (hne : pd ≠ child) : SpaceKept m m' pd where
  entries i hi j hj := by
    by_cases hparent : pd = parent
    · subst hparent
      exact h.parentEntry i hi j hj
    · exact Or.inl (h.others _ (mem_userSites.mpr ⟨Finset.mem_insert_of_mem hpd, hi, hj⟩)
        hparent hne)
  data _ hi _ hj := h.pages _ (mem_userSites.mpr ⟨Finset.mem_insert_of_mem hpd, hi, hj⟩) hne

end CloneKept

/-- What cloning row `i` does besides keeping the invariant. -/
structure RowCloned (m : Machine) (pds : Finset Nat) (own : Nat → Owner) (parent child i : Nat)
    (m' : Machine) : Prop where
  sub : Sub m' parent child
  childDir : ∀ k, k ≠ i → m'.mem child k = m.mem child k
  kept : CloneKept m pds parent child m'
  refcounts : ∀ f, own f = .page → (∀ j < 1024, siteFrame m (parent, i, j) ≠ some f) →
    m'.pmm.refcounts f = m.pmm.refcounts f

theorem RowCloned.parentFrame {i : Nat} {m' : Machine}
    (h : RowCloned m pds own parent child i m') : ∀ k < 768, ∀ j < 1024,
    siteFrame m' (parent, k, j) = siteFrame m (parent, k, j) :=
  fun k hk j hj => (h.kept.parentEntry k hk j hj).frame

/-- A row of the child: its new table is filled from the parent's row and then
linked. -/
theorem cloneRow (h : VmInv m pds own) {i t : Nat} {l : List Nat} (hparent : parent ∈ pds)
    (hchild : child ∈ pds) (hne : parent ≠ child) (hi : i < 768)
    (hpp : isPresent (m.mem parent i) = true) (hcz : isPresent (m.mem child i) = false)
    (hsub : Sub m parent child) (hrange : ∀ j, j ∈ l ↔ j < 1024) (hnodup : l.Nodup)
    (hroom : ∀ j < 1024, ∀ f, siteFrame m (parent, i, j) = some f →
      m.pmm.refcounts f < 0xFFFF)
    (hfree : own t = .free) (hmax : t < pmmMaxPages) (hnz : frameAddr t ≠ 0#32)
    (halloc : m.allocPage = (m.withPmm (m.pmm.take t), frameAddr t)) :
    let m' := (l.foldl (EnclaveOS.cloneEntry (frameOf (m.mem parent i)) t)
      ((m.withPmm (m.pmm.take t)).clearFrame t)).setWord child i
        (frameAddr t ||| pagePresent ||| pageWrite ||| pageUser)
    ∃ own', VmInv m' pds own' ∧ KernelFrame m own m' own' ∧
      RowCloned m pds own parent child i m' := by
  intro m'
  have hdirt : ∀ a ∈ pds, a ≠ t := by
    rintro a ha rfl
    rw [h.dir a ha] at hfree
    cases hfree
  set w := frameAddr t ||| pagePresent ||| pageWrite ||| pageUser with hw
  set m₁ := (m.withPmm (m.pmm.take t)).clearFrame t with hm₁
  -- the empty table is linked before it is filled
  have hens : EnclaveOS.ensureTable m child i = (m₁.setWord child i w, true) := by
    unfold EnclaveOS.ensureTable
    rw [hcz, halloc]
    simp [hnz, frameOf_frameAddr hmax, hm₁, hw]
  set m₂ := m₁.setWord child i w with hm₂
  obtain ⟨own₁, hready⟩ : ∃ own₁, TableReady m pds own child i m₂ true own₁ := by
    have hready := h.ensureTable hchild hi
    rwa [hens] at hready
  have hP : child ≠ frameOf (m.mem parent i) := h.table_ne_dir hparent hi hpp hchild
  have hm' : m' = l.foldl (EnclaveOS.cloneEntry (frameOf (m.mem parent i)) t) m₂ :=
    (foldl_cloneEntry_setWord m₁ hP (hdirt child hchild) i w l).symm
  have hparent₂ : m₂.mem parent = m.mem parent := by
    rw [hm₂, Machine.setWord_mem_of_ne hne, hm₁,
      Machine.clearFrame_mem_of_ne (hdirt parent hparent)]
    rfl
  have hchild₂ : ∀ k, k ≠ i → m₂.mem child k = m.mem child k := by
    intro k hk
    rw [hm₂, Machine.setWord_mem, if_neg fun hc => hk hc.2, hm₁,
      Machine.clearFrame_mem_of_ne (hdirt child hchild)]
    rfl
  have hpde₂ : m₂.mem child i = w := Machine.setWord_mem_self _ _ _
  have hframe₂ : ∀ s ∈ userSites pds, siteFrame m₂ s = siteFrame m s :=
    fun s hs => siteFrame_congr (hready.entries s hs)
  have hpsite : ∀ {k j : Nat}, k < 768 → j < 1024 → (parent, k, j) ∈ userSites pds :=
    fun hk hj => mem_userSites.mpr ⟨hparent, hk, hj⟩
  have hcsite : ∀ {k j : Nat}, k < 768 → j < 1024 → (child, k, j) ∈ userSites pds :=
    fun hk hj => mem_userSites.mpr ⟨hchild, hk, hj⟩
  have hrc₂ : ∀ f, own f = .page → m₂.pmm.refcounts f = m.pmm.refcounts f := by
    intro f hf
    apply Function.update_of_ne
    rintro rfl
    rw [hfree] at hf
    cases hf
  obtain ⟨h₃, hk₃, hs₃⟩ := hready.inv.foldl_cloneEntry (l := l) (i := i)
    (P := frameOf (m.mem parent i)) (C := t) hparent hchild hne hi
    (by rw [hparent₂]; exact hpp) (hready.present rfl) (by rw [hparent₂])
    (by rw [hpde₂]; exact frameOf_tableEntry hmax) (fun j hj => (hrange j).mp hj) hnodup
    (by
      intro j hj
      rw [hready.entries _ (hcsite hi ((hrange j).mp hj))]
      exact siteEntry_eq_none fun hp => by rw [hcz] at hp; cases hp)
    (by
      intro a ha b hb f hf
      rw [hframe₂ _ (hpsite ha hb)]
      rw [hframe₂ _ (hcsite ha hb)] at hf
      exact hsub a ha b hb f hf)
    (by
      intro j hj f hf
      rw [hframe₂ _ (hpsite hi ((hrange j).mp hj))] at hf
      rw [hrc₂ f (h.page_of_frame (hpsite hi ((hrange j).mp hj)) hf)]
      exact hroom j ((hrange j).mp hj) f hf)
  rw [hm']
  have hownP : own (frameOf (m.mem parent i)) = .table parent i := h.table parent hparent i hi hpp
  refine ⟨own₁, h₃, hready.kernel.trans hk₃, hs₃.sub, ?_, ⟨?_, ?_, ?_, ?_⟩, ?_⟩
  · intro k hk
    rw [← hchild₂ k hk]
    apply congrFun
    apply hs₃.mem
    · rw [hparent₂]
      exact hP
    · rw [hpde₂, hw, frameOf_tableEntry hmax]
      exact hdirt child hchild
  · intro s hs hsp hsc
    rw [hs₃.others s hs hsp hsc, hready.entries s hs]
  · intro k hk j hj
    by_cases hki : k = i
    · rw [hki, ← hready.entries _ (hpsite hi hj)]
      exact hs₃.parentEntry j hj
    · rw [hs₃.entries _ (hpsite hk hj) hki, hready.entries _ (hpsite hk hj)]
      exact .refl _
  · intro k hk j hj
    by_cases hki : k = i
    · rw [hki, ← hready.entries _ (hpsite hi hj), ← hready.entries _ (hcsite hi hj)]
      exact hs₃.childEntry j hj
    · rw [hs₃.entries _ (hcsite hk hj) hki, hready.entries _ (hcsite hk hj)]
      exact Or.inl rfl
  · intro s hs _ f hframe
    have hf := h.page_of_frame hs hframe
    rw [hs₃.mem f, hready.data f (Or.inr hf)]
    · rw [hparent₂]
      rintro rfl
      rw [hownP] at hf
      cases hf
    · rw [hpde₂, hw, frameOf_tableEntry hmax]
      rintro rfl
      rw [hfree] at hf
      cases hf
  · intro f hf hnot
    rw [hs₃.refcounts f fun j hj => by
        rw [hframe₂ _ (hpsite hi ((hrange j).mp hj))]
        exact hnot j ((hrange j).mp hj), hrc₂ f hf]

/-- One directory entry of `vmm_clone_address_space`. -/
theorem cloneDirEntry (h : VmInv m pds own) {i : Nat} (hparent : parent ∈ pds)
    (hchild : child ∈ pds) (hne : parent ≠ child) (hi : i < 768)
    (hcz : isPresent (m.mem child i) = false) (hsub : Sub m parent child)
    (hroom : ∀ j < 1024, ∀ f, siteFrame m (parent, i, j) = some f →
      m.pmm.refcounts f < 0xFFFF) :
    ∃ own', VmInv (cloneDirEntry parent child m i).1 pds own' ∧
      KernelFrame m own (cloneDirEntry parent child m i).1 own' ∧
      CloneKept m pds parent child (cloneDirEntry parent child m i).1 ∧
      ((cloneDirEntry parent child m i).2 = true →
        RowCloned m pds own parent child i (cloneDirEntry parent child m i).1) := by
  unfold EnclaveOS.cloneDirEntry
  simp only [h.small parent hparent i hi, Bool.false_eq_true, if_false]
  cases hpp : isPresent (m.mem parent i) with
  | false =>
    simp only [Bool.not_false, if_true]
    exact ⟨own, h, KernelFrame.refl m own, .refl m pds parent child, fun _ => ⟨hsub, fun _ _ => rfl,
      .refl m pds parent child, fun _ _ _ => rfl⟩⟩
  | true =>
    simp only [Bool.not_true, Bool.false_eq_true, if_false]
    rcases h.allocPage with halloc | ⟨t, hfree, hmax, hnz, halloc, hheld, hkernel⟩
    · rw [halloc]
      exact ⟨own, h, KernelFrame.refl m own, .refl m pds parent child, by rintro ⟨⟩⟩
    · have hrow := h.cloneRow hparent hchild hne hi hpp hcz hsub (fun j => List.mem_range)
        List.nodup_range hroom hfree hmax hnz halloc
      rw [halloc]
      simp only [hnz, if_false, frameOf_frameAddr hmax]
      obtain ⟨own', hinv, hk, hcloned⟩ := hrow
      exact ⟨own', hinv, hk, hcloned.kept, fun _ => hcloned⟩

/-- The loop over the user half. -/
theorem cloneUserHalf (h : VmInv m pds own) {l : List Nat} (hparent : parent ∈ pds)
    (hchild : child ∈ pds) (hne : parent ≠ child) (hl : ∀ i ∈ l, i < 768) (hnodup : l.Nodup)
    (hcz : ∀ i ∈ l, isPresent (m.mem child i) = false) (hsub : Sub m parent child)
    (hroom : ∀ i ∈ l, ∀ j < 1024, ∀ f, siteFrame m (parent, i, j) = some f →
      m.pmm.refcounts f < 0xFFFF) :
    ∃ own', VmInv (cloneUserHalf parent child l m).1 pds own' ∧
      KernelFrame m own (cloneUserHalf parent child l m).1 own' ∧
      CloneKept m pds parent child (cloneUserHalf parent child l m).1 := by
  induction l generalizing m own with
  | nil => exact ⟨own, h, KernelFrame.refl m own, .refl m pds parent child⟩
  | cons i l ih =>
    obtain ⟨hil, hnodup⟩ := List.nodup_cons.mp hnodup
    have hi : i < 768 := hl i List.mem_cons_self
    have hki : ∀ k ∈ l, k ≠ i := by
      rintro k hk rfl
      exact hil hk
    obtain ⟨own₁, h₁, hk₁, hkept₁, hrow⟩ := h.cloneDirEntry hparent hchild hne hi
      (hcz i List.mem_cons_self) hsub (hroom i List.mem_cons_self)
    rw [EnclaveOS.cloneUserHalf]
    generalize EnclaveOS.cloneDirEntry parent child m i = res at h₁ hk₁ hkept₁ hrow
    obtain ⟨m₁, ok⟩ := res
    cases ok with
    | false => exact ⟨own₁, h₁, hk₁, hkept₁⟩
    | true =>
      have hcloned := hrow rfl
      have hk' : ∀ k ∈ l, k < 768 := fun k hk => hl k (List.mem_cons_of_mem _ hk)
      obtain ⟨own₂, h₂, hk₂, hkept₂⟩ := ih h₁ hk' hnodup
        (fun k hk => by
          rw [hcloned.childDir k (hki k hk)]
          exact hcz k (List.mem_cons_of_mem _ hk))
        hcloned.sub (by
          intro k hk j hj f hf
          have hs : (parent, k, j) ∈ userSites pds := mem_userSites.mpr ⟨hparent, hk' k hk, hj⟩
          rw [hcloned.parentFrame k (hk' k hk) j hj] at hf
          rw [hcloned.refcounts f (h.page_of_frame hs hf) fun b hb hif =>
            hki k hk (h.single parent k j i b f hs (mem_userSites.mpr ⟨hparent, hi, hb⟩) hf
              hif).1]
          exact hroom k (List.mem_cons_of_mem _ hk) j hj f hf)
      exact ⟨own₂, h₂, hk₁.trans hk₂, hkept₁.trans hkept₂⟩

/-- The entries of the child after cloning: none, or those of the parent in copy-on-write form. -/
def ChildEntries (m m' : Machine) (parent child : Nat) : Prop :=
  ∀ i < 768, ∀ j < 1024, siteEntry m' (child, i, j) = none ∨
    siteEntry m' (child, i, j) = (siteEntry m (parent, i, j)).map cowEntry

/-- `vmm_clone_address_space`, when no page of the parent has a saturated
reference count: the child's directory joins the set, or nothing is left of it.  Every other user
half stays. -/
theorem vmmCloneAddressSpace_kept (h : VmInv m pds own) (hparent : parent ∈ pds)
    (hroom : ∀ i < 768, ∀ j < 1024, ∀ f, siteFrame m (parent, i, j) = some f →
      m.pmm.refcounts f < 0xFFFF) :
    (∃ m' own', vmmCloneAddressSpace m parent = (m', none) ∧ VmInv m' pds own' ∧
      KernelFrame m own m' own' ∧ ∀ pd ∈ pds, SpaceKept m m' pd) ∨
    (∃ m' n own', vmmCloneAddressSpace m parent = (m', some n) ∧ n ∉ pds ∧
      VmInv m' (insert n pds) own' ∧ KernelFrame m own m' own' ∧
      (∀ pd ∈ pds, SpaceKept m m' pd) ∧ ChildEntries m m' parent n) := by
  rw [vmmCloneAddressSpace_eq]
  rcases h.vmmCreateAddressSpace with hcreate | ⟨m₁, n, own₁, hcreate, hnot, h₁, hk₁, hnew⟩
  · rw [hcreate]
    exact Or.inl ⟨m, own, rfl, h, KernelFrame.refl m own, fun _ _ => .refl m _⟩
  · rw [hcreate]
    have hne : parent ≠ n := by
      rintro rfl
      exact hnot hparent
    have hempty : ∀ i < 768, isPresent (m₁.mem n i) = false := by
      intro i hi
      rw [hnew.empty i hi]
      exact isPresent_zero
    have hnone : ∀ i < 768, ∀ j, siteEntry m₁ (n, i, j) = none := by
      intro i hi j
      exact siteEntry_eq_none fun hp => absurd hp (by rw [hempty i hi]; simp)
    have hframes : ∀ i < 768, ∀ j < 1024,
        siteFrame m₁ (parent, i, j) = siteFrame m (parent, i, j) :=
      fun i hi j hj => siteFrame_congr (hnew.entries _ (mem_userSites.mpr ⟨hparent, hi, hj⟩))
    obtain ⟨own₂, h₂, hk₂, hkept⟩ := h₁.cloneUserHalf (l := List.range 768)
      (Finset.mem_insert_of_mem hparent) (Finset.mem_insert_self n pds) hne
      (fun i hi => List.mem_range.mp hi) List.nodup_range
      (fun i hi => hempty i (List.mem_range.mp hi))
      (by
        intro i hi j _ f hf
        rw [siteFrame, hnone i hi] at hf
        cases hf)
      (by
        intro i hi j hj f hf
        rw [hframes i (List.mem_range.mp hi) j hj] at hf
        rw [hnew.refcounts f (h.page_of_frame
          (mem_userSites.mpr ⟨hparent, List.mem_range.mp hi, hj⟩) hf)]
        exact hroom i (List.mem_range.mp hi) j hj f hf)
    dsimp only
    generalize EnclaveOS.cloneUserHalf parent n (List.range 768) m₁ = res at h₂ hk₂ hkept ⊢
    obtain ⟨m₂, ok⟩ := res
    have hspace : ∀ pd ∈ pds, SpaceKept m m₂ pd :=
      fun pd hpd => (NewDir.space h hnew hpd).trans (hkept.space hpd fun heq => hnot (heq ▸ hpd))
    cases ok with
    | true =>
      refine Or.inr ⟨m₂, n, own₂, rfl, hnot, h₂, hk₁.trans hk₂, hspace, ?_⟩
      intro i hi j hj
      rw [← hnew.entries _ (mem_userSites.mpr ⟨hparent, hi, hj⟩), ← hnone i hi j]
      exact hkept.childEntry i hi j hj
    | false =>
      obtain ⟨own₃, h₃, hk₃⟩ := h₂.vmmDestroyAddressSpace (Finset.mem_insert_self n pds)
      rw [Finset.erase_insert hnot] at h₃
      refine Or.inl ⟨_, own₃, rfl, h₃, (hk₁.trans hk₂).trans hk₃, fun pd hpd => ?_⟩
      exact (hspace pd hpd).trans (h₂.space_destroy (Finset.mem_insert_self n pds)
        (Finset.mem_insert_of_mem hpd) fun heq => hnot (heq ▸ hpd))

/-- `vmm_clone_address_space`: who owns the frames. -/
theorem vmmCloneAddressSpace (h : VmInv m pds own) (hparent : parent ∈ pds)
    (hroom : ∀ i < 768, ∀ j < 1024, ∀ f, siteFrame m (parent, i, j) = some f →
      m.pmm.refcounts f < 0xFFFF) :
    (∃ m' own', vmmCloneAddressSpace m parent = (m', none) ∧ VmInv m' pds own' ∧
      KernelFrame m own m' own') ∨
    (∃ m' n own', vmmCloneAddressSpace m parent = (m', some n) ∧ n ∉ pds ∧
      VmInv m' (insert n pds) own' ∧ KernelFrame m own m' own') := by
  rcases h.vmmCloneAddressSpace_kept hparent hroom with
    ⟨m', own', hclone, hinv, hk, -⟩ | ⟨m', n, own', hclone, hnot, hinv, hk, -⟩
  · exact Or.inl ⟨m', own', hclone, hinv, hk⟩
  · exact Or.inr ⟨m', n, own', hclone, hnot, hinv, hk⟩

end VmInv

end EnclaveOS
