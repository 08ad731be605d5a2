import EnclaveOS.Memory.PagingSpec

/-!
# DestroySpec - destroying an address space

`vmm_destroy_address_space` drops every reference of a directory without
clearing the page tables it walks.  The proof runs a second loop beside it that
does clear each entry it drops; the two agree on the allocator, and differ in
memory only in a frame that is free by the time the row is done.
-/

namespace EnclaveOS

open PageWord RefCount

/-- `destroyEntry`, clearing the entry as well. -/
def dropEntry (pt : Nat) (m : Machine) (j : Nat) : Machine :=
  if isPresent (m.mem pt j) then (m.decRef (physOf (m.mem pt j))).setWord pt j 0#32 else m

/-- The loop of the source only moves the allocator. -/
theorem foldl_destroyEntry (pt : Nat) (l : List Nat) (m : Machine) :
    ∃ p, l.foldl (destroyEntry pt) m = m.withPmm p := by
  induction l generalizing m with
  | nil => exact ⟨m.pmm, rfl⟩
  | cons j l ih =>
    rw [List.foldl_cons]
    unfold destroyEntry
    split_ifs
    · obtain ⟨p, hp⟩ := ih (m.decRef (physOf (m.mem pt j)))
      exact ⟨p, hp⟩
    · exact ih m

theorem dropEntry_mem (pt : Nat) (m : Machine) (j g k : Nat) :
    (dropEntry pt m j).mem g k =
      if g = pt ∧ k = j ∧ isPresent (m.mem pt j) = true then 0#32 else m.mem g k := by
  unfold dropEntry
  by_cases hpres : isPresent (m.mem pt j) = true
  · rw [if_pos hpres, Machine.setWord_mem]
    simp [hpres]
  · rw [if_neg hpres, if_neg fun hc => hpres hc.2.2]

/-- The two loops run the allocator through the same steps. -/
theorem foldl_destroyEntry_pmm (pt : Nat) {l : List Nat} (hl : l.Nodup) {a b : Machine}
    (hpmm : a.pmm = b.pmm) (hmem : ∀ j ∈ l, a.mem pt j = b.mem pt j) :
    (l.foldl (destroyEntry pt) a).pmm = (l.foldl (dropEntry pt) b).pmm := by
  induction l generalizing a b with
  | nil => exact hpmm
  | cons j l ih =>
    obtain ⟨hj, hl⟩ := List.nodup_cons.mp hl
    rw [List.foldl_cons, List.foldl_cons]
    apply ih hl
    · have heq := hmem j List.mem_cons_self
      unfold destroyEntry dropEntry
      rw [heq]
      split_ifs
      · simp [Machine.decRef, hpmm]
      · exact hpmm
    · intro k hk
      have hne : k ≠ j := by
        rintro rfl
        exact hj hk
      have ha : (destroyEntry pt a j).mem = a.mem := by
        unfold destroyEntry
        split_ifs <;> rfl
      rw [ha, dropEntry_mem, if_neg fun hc => hne hc.2.1]
      exact hmem k (List.mem_cons_of_mem _ hk)

namespace VmInv

variable {m : Machine} {pds : Finset Nat} {own : Nat → Owner}

/-- A reference to a user page can be dropped. -/
theorem dropped_page (h : VmInv m pds own) {f : Nat} (hf : own f = .page) :
    Dropped m.pmm f (pmmDecRef m.pmm (frameAddr f)) := by
  have hkernel : ∀ use, own f ≠ .kernel use := by rw [hf]; rintro use ⟨⟩
  have hlimit := h.lt_limit hkernel
  exact dropped_decRef (h.lt_maxPages hkernel) hlimit (h.counted f hf).2
    (h.bit_set (by rw [hf]; rintro ⟨⟩) hlimit)

/-- One step of the clearing loop. -/
theorem dropEntry (h : VmInv m pds own) {pd i j : Nat} (hpd : pd ∈ pds) (hi : i < 768)
    (hj : j < 1024) (hpde : isPresent (m.mem pd i) = true) :
    ∃ own', VmInv (dropEntry (frameOf (m.mem pd i)) m j) pds own' ∧
      KernelFrame m own (dropEntry (frameOf (m.mem pd i)) m j) own' := by
  unfold EnclaveOS.dropEntry
  split_ifs with hpte
  · have hown := h.page_of_frame (mem_userSites.mpr ⟨hpd, hi, hj⟩)
      (siteFrame_of_entry (siteEntry_eq_some.mpr ⟨hpde, hpte, rfl⟩))
    rw [physOf_eq_frameAddr]
    exact ⟨_, h.unmapDrop hpd hi hj hpde hpte (hasFlag_zero _) (h.dropped_page hown)⟩
  · exact ⟨own, h, KernelFrame.refl m own⟩

/-- The clearing loop over a row. -/
theorem foldl_dropEntry (h : VmInv m pds own) {pd i t : Nat} {l : List Nat} (hpd : pd ∈ pds)
    (hi : i < 768) (hl : ∀ j ∈ l, j < 1024) (hpde : isPresent (m.mem pd i) = true)
    (ht : frameOf (m.mem pd i) = t) :
    ∃ own', VmInv (l.foldl (EnclaveOS.dropEntry t) m) pds own' ∧
      KernelFrame m own (l.foldl (EnclaveOS.dropEntry t) m) own' ∧
      (∀ g, g ≠ t → (l.foldl (EnclaveOS.dropEntry t) m).mem g = m.mem g) ∧
      (∀ j, isPresent ((l.foldl (EnclaveOS.dropEntry t) m).mem t j) = true →
        j ∉ l ∧ isPresent (m.mem t j) = true) := by
  induction l generalizing m own with
  | nil =>
    exact ⟨own, h, KernelFrame.refl m own, fun _ _ => rfl, fun j hj => ⟨by simp, hj⟩⟩
  | cons j l ih =>
    have hne : pd ≠ t := ht ▸ h.table_ne_dir hpd hi hpde hpd
    obtain ⟨own₁, h₁, hk₁⟩ := h.dropEntry hpd hi (hl j List.mem_cons_self) hpde
    rw [ht] at h₁ hk₁
    have hother : ∀ g, g ≠ t → (EnclaveOS.dropEntry t m j).mem g = m.mem g := by
      intro g hg
      funext k
      rw [dropEntry_mem, if_neg fun hc => hg hc.1]
    have hpd₁ : (EnclaveOS.dropEntry t m j).mem pd i = m.mem pd i := congrFun (hother pd hne) i
    obtain ⟨own₂, h₂, hk₂, hrest, hrow⟩ := ih h₁ (fun k hk => hl k (List.mem_cons_of_mem _ hk))
      (by rw [hpd₁]; exact hpde) (by rw [hpd₁]; exact ht)
    refine ⟨own₂, h₂, hk₁.trans hk₂, fun g hg => (hrest g hg).trans (hother g hg), ?_⟩
    intro k hk
    obtain ⟨hkl, hk'⟩ := hrow k hk
    rw [dropEntry_mem] at hk'
    split_ifs at hk' with hc
    · rw [isPresent_zero] at hk'
      cases hk'
    · refine ⟨?_, hk'⟩
      rw [List.mem_cons, not_or]
      refine ⟨?_, hkl⟩
      rintro rfl
      exact hc ⟨rfl, rfl, hk'⟩

/-- A present directory entry of `vmm_destroy_address_space`: the row, the
table, and the entry itself. -/
theorem destroyRow (h : VmInv m pds own) {pd i : Nat} {l : List Nat} (hpd : pd ∈ pds)
    (hi : i < 768) (hpde : isPresent (m.mem pd i) = true) (hrange : ∀ j, j ∈ l ↔ j < 1024)
    (hnodup : l.Nodup) :
    ∃ own', VmInv (((l.foldl (destroyEntry (frameOf (m.mem pd i))) m).decRef
        (physOf (m.mem pd i))).setWord pd i 0#32) pds own' ∧
      KernelFrame m own (((l.foldl (destroyEntry (frameOf (m.mem pd i))) m).decRef
        (physOf (m.mem pd i))).setWord pd i 0#32) own' ∧
      (∀ k, isPresent ((((l.foldl (destroyEntry (frameOf (m.mem pd i))) m).decRef
        (physOf (m.mem pd i))).setWord pd i 0#32).mem pd k) = true →
        k ≠ i ∧ isPresent (m.mem pd k) = true) := by
  set t := frameOf (m.mem pd i) with ht
  have hne : pd ≠ t := h.table_ne_dir hpd hi hpde hpd
  have htable : own t = .table pd i := h.table pd hpd i hi hpde
  obtain ⟨own₁, h₁, hk₁, hrest, hrow⟩ := h.foldl_dropEntry (l := l) hpd hi
    (fun j hj => (hrange j).mp hj) hpde ht.symm
  have hpmm : (l.foldl (EnclaveOS.destroyEntry t) m).pmm =
      (l.foldl (EnclaveOS.dropEntry t) m).pmm :=
    foldl_destroyEntry_pmm t hnodup rfl fun _ _ => rfl
  obtain ⟨p, hp⟩ := foldl_destroyEntry t l m
  rw [hp] at hpmm ⊢
  set g := l.foldl (EnclaveOS.dropEntry t) m with hg
  have hpg : p = g.pmm := hpmm
  subst hpg
  have hpd₁ : g.mem pd i = m.mem pd i := congrFun (hrest pd hne) i
  have hpde₁ : isPresent (g.mem pd i) = true := by rw [hpd₁]; exact hpde
  have htable₁ : own₁ t = .table pd i := by
    have := h₁.table pd hpd i hi hpde₁
    rwa [hpd₁] at this
  have hkernel : ∀ use, own₁ t ≠ .kernel use := by rw [htable₁]; rintro use ⟨⟩
  have hlimit := h₁.lt_limit hkernel
  have hone := h₁.one t (Or.inr ⟨pd, i, htable₁⟩)
  have hdrop := dropped_decRef (h₁.lt_maxPages hkernel) hlimit (by omega)
    (h₁.bit_set (by rw [htable₁]; rintro ⟨⟩) hlimit)
  obtain ⟨h₂, hk₂⟩ := h₁.removeTable (i := i) (w := 0#32)
    (p := pmmDecRef g.pmm (frameAddr t)) hpd hi hpde₁
    (by
      intro j hj
      rw [Machine.pteAt, hpd₁, ← ht, ← Bool.not_eq_true]
      exact fun hpres => (hrow j hpres).1 ((hrange j).mpr hj))
    isPresent_zero (hasFlag_zero _) (by rw [hpd₁]; exact hdrop)
  rw [hpd₁, ← ht] at h₂ hk₂
  rw [physOf_eq_frameAddr, ← ht]
  -- the row of the source keeps the entries of the freed table
  have hmem : ∀ f, f ≠ t → (((m.withPmm g.pmm).decRef (frameAddr t)).setWord pd i 0#32).mem f =
      ((g.withPmm (pmmDecRef g.pmm (frameAddr t))).setWord pd i 0#32).mem f := by
    intro f hf
    funext k
    rw [Machine.setWord_mem, Machine.setWord_mem, Machine.decRef_mem, Machine.withPmm_mem,
      Machine.withPmm_mem, hrest f hf]
  refine ⟨_, h₂.congrMem _ rfl hk₁.boot.symm ?_ ?_, ?_, ?_⟩
  · apply hmem
    have huse := h₁.boot
    intro heq
    exact hkernel _ (heq ▸ huse)
  · intro f hf
    apply hmem
    rintro rfl
    simp at hf
  · have hk := hk₁.trans hk₂
    refine ⟨hk.owner, ?_, rfl, hk.maxPage, rfl⟩
    intro f use hf
    rw [hmem f (by rintro rfl; rw [htable] at hf; cases hf)]
    exact hk.mem f use hf
  · intro k hk
    rw [Machine.setWord_mem] at hk
    split_ifs at hk with hc
    · rw [isPresent_zero] at hk
      cases hk
    · exact ⟨fun hki => hc ⟨rfl, hki⟩, hk⟩

/-- One directory entry of `vmm_destroy_address_space`. -/
theorem destroyDirEntry (h : VmInv m pds own) {pd i : Nat} (hpd : pd ∈ pds) (hi : i < 768) :
    ∃ own', VmInv (destroyDirEntry pd m i) pds own' ∧
      KernelFrame m own (destroyDirEntry pd m i) own' ∧
      (∀ k, isPresent ((destroyDirEntry pd m i).mem pd k) = true →
        k ≠ i ∧ isPresent (m.mem pd k) = true) := by
  rw [destroyDirEntry_eq m pd i (h.small pd hpd i hi)]
  cases hpde : isPresent (m.mem pd i) with
  | false =>
    rw [if_neg (by simp)]
    refine ⟨own, h, KernelFrame.refl m own, fun k hk => ⟨?_, hk⟩⟩
    rintro rfl
    rw [hpde] at hk
    cases hk
  | true =>
    rw [if_pos rfl]
    exact h.destroyRow hpd hi hpde (fun j => List.mem_range) List.nodup_range

/-- The loop over the directory entries. -/
theorem foldl_destroyDirEntry (h : VmInv m pds own) {pd : Nat} {l : List Nat} (hpd : pd ∈ pds)
    (hl : ∀ i ∈ l, i < 768) :
    ∃ own', VmInv (l.foldl (EnclaveOS.destroyDirEntry pd) m) pds own' ∧
      KernelFrame m own (l.foldl (EnclaveOS.destroyDirEntry pd) m) own' ∧
      (∀ k, isPresent ((l.foldl (EnclaveOS.destroyDirEntry pd) m).mem pd k) = true →
        k ∉ l ∧ isPresent (m.mem pd k) = true) := by
  induction l generalizing m own with
  | nil => exact ⟨own, h, KernelFrame.refl m own, fun _ hk => ⟨by simp, hk⟩⟩
  | cons i l ih =>
    obtain ⟨own₁, h₁, hk₁, hrow⟩ := h.destroyDirEntry hpd (hl i List.mem_cons_self)
    obtain ⟨own₂, h₂, hk₂, hrest⟩ := ih h₁ fun k hk => hl k (List.mem_cons_of_mem _ hk)
    refine ⟨own₂, h₂, hk₁.trans hk₂, fun k hk => ?_⟩
    obtain ⟨hkl, hk₁'⟩ := hrest k hk
    obtain ⟨hki, hkm⟩ := hrow k hk₁'
    exact ⟨by simp [hki, hkl], hkm⟩

/-- `vmm_destroy_address_space` takes the directory out of the set. -/
theorem vmmDestroyAddressSpace (h : VmInv m pds own) {pd : Nat} (hpd : pd ∈ pds) :
    ∃ own', VmInv (vmmDestroyAddressSpace m pd) (pds.erase pd) own' ∧
      KernelFrame m own (vmmDestroyAddressSpace m pd) own' := by
  have hboot : pd ≠ m.bootPageDirectory := by
    have huse := h.boot
    rintro rfl
    rw [h.dir _ hpd] at huse
    cases huse
  unfold EnclaveOS.vmmDestroyAddressSpace
  rw [if_neg hboot]
  obtain ⟨own₁, h₁, hk₁, hrow⟩ := h.foldl_destroyDirEntry (l := List.range 768) hpd
    fun i hi => List.mem_range.mp hi
  obtain ⟨h₂, hk₂⟩ := h₁.removeDir hpd fun i hi => by
    rw [← Bool.not_eq_true]
    exact fun hp => (hrow i hp).1 (List.mem_range.mpr hi)
  exact ⟨_, h₂, hk₁.trans hk₂⟩

end VmInv

end EnclaveOS
