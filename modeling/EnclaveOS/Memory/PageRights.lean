import EnclaveOS.Memory.FaultSpec
import EnclaveOS.Memory.VmaMap
import EnclaveOS.Memory.VmaScans

/-!
# PageRights - the mapped pages of a process and its areas

A page is mapped on behalf of an area: by demand paging, by the loader, or by a fork from a page of
the parent.  The areas and the entries are edited in separate loops, so it has to be proved that
each mapped page still lies in an area that allows its entry.  What an area allows is a parameter:
with the relation that always holds, the statements say that the areas cover the pages.
-/

namespace EnclaveOS

open PageWord

/-- The flags of an area allow an entry: the area may be read, and written where the entry may. -/
def Permits (flags w : Word) : Prop :=
  hasFlag flags vmaRead = true ∧ (hasFlag w pageWrite = true → hasFlag flags vmaWrite = true)

/-- A relation of area flags and entries that is not stricter than `Permits` and allows an entry
in its copy-on-write form too. -/
structure PageRights (R : Word → Word → Prop) : Prop where
  permits : ∀ flags w, Permits flags w → R flags w
  cow : ∀ flags w, R flags w → R flags (cowEntry w)

theorem pageRights_permits : PageRights Permits where
  permits _ _ h := h
  cow _ w h := ⟨h.1, by
    rw [pageWrite_cowEntry]
    rintro ⟨⟩⟩

theorem pageRights_true : PageRights fun _ _ => True :=
  ⟨fun _ _ _ => trivial, fun _ _ _ => trivial⟩

/-- An area holds the page and allows the entry. -/
def Allowed (R : Word → Word → Prop) (vmas : List Vma) (page : Nat) (w : Word) : Prop :=
  ∃ v ∈ vmas, v.Holds page ∧ R v.flags w

/-- The page of an entry of the user half. -/
def entryPage (i j : Nat) : Nat := (i * 1024 + j) * 4096

/-- Every page that is mapped in the user half lies in an area that allows its entry. -/
def PagesAllowed (R : Word → Word → Prop) (m : Machine) (pd : Nat) (vmas : List Vma) : Prop :=
  ∀ i < 768, ∀ j < 1024, ∀ w, siteEntry m (pd, i, j) = some w → Allowed R vmas (entryPage i j) w

theorem entryPage_mod (i j : Nat) : entryPage i j % 4096 = 0 :=
  Nat.mul_mod_left _ _

@[simp]
theorem dirIndex_entryPage (i : Nat) {j : Nat} (hj : j < 1024) : dirIndex (entryPage i j) = i := by
  unfold dirIndex entryPage
  omega

@[simp]
theorem tableIndex_entryPage (i : Nat) {j : Nat} (hj : j < 1024) :
    tableIndex (entryPage i j) = j := by
  unfold tableIndex entryPage
  omega

theorem entryPage_index (addr : Nat) : entryPage (dirIndex addr) (tableIndex addr) = pageDown addr := by
  unfold entryPage dirIndex tableIndex pageDown
  omega

/-- Each page of an area of the first list lies in an area of the second with the same flags. -/
def AreasCover (vmas vmas' : List Vma) : Prop :=
  ∀ v ∈ vmas, ∀ page, page % 4096 = 0 → v.Holds page → ∃ v' ∈ vmas', v'.Holds page ∧ v'.flags = v.flags

theorem AreasCover.of_subset {vmas vmas' : List Vma} (h : ∀ v ∈ vmas, v ∈ vmas') : AreasCover vmas vmas' :=
  fun v hv _ _ hholds => ⟨v, h v hv, hholds, rfl⟩

theorem AreasCover.refl (vmas : List Vma) : AreasCover vmas vmas :=
  .of_subset fun _ hv => hv

theorem AreasCover.trans {a b c : List Vma} (hab : AreasCover a b) (hbc : AreasCover b c) : AreasCover a c := by
  intro v hv page hpage hholds
  obtain ⟨v', hv', hholds', hflags⟩ := hab v hv page hpage hholds
  obtain ⟨v'', hv'', hholds'', hflags'⟩ := hbc v' hv' page hpage hholds'
  exact ⟨v'', hv'', hholds'', hflags'.trans hflags⟩

theorem covers_vmaAdd (vmas : List Vma) (start stop : Nat) (flags : Word) (k : Kmalloc) :
    AreasCover vmas (vmaAdd vmas start stop flags k).1 := by
  rcases vmaAdd_cases vmas start stop flags k with ⟨hsame, -⟩ | ⟨-, -, hinsert, -⟩
  · rw [hsame]
    exact .refl vmas
  · rw [hinsert]
    exact .of_subset fun v hv => mem_vmaInsert.mpr (Or.inr hv)

/-- The area that `vma_add` makes holds the pages of the range it was given. -/
theorem vmaAdd_holds {vmas : List Vma} {start stop : Nat} {flags : Word} {k : Kmalloc}
    (hret : ¬(vmaAdd vmas start stop flags k).2.1 < 0) {page : Nat} (hlow : pageDown start ≤ page)
    (hhigh : page < pageUp stop) :
    ∃ v ∈ (vmaAdd vmas start stop flags k).1, v.Holds page ∧ v.flags = flags := by
  rcases vmaAdd_cases vmas start stop flags k with ⟨-, hfail⟩ | ⟨-, -, hinsert, -⟩
  · exact absurd hfail hret
  · rw [hinsert]
    exact ⟨_, mem_vmaInsert.mpr (Or.inl rfl), ⟨hlow, hhigh⟩, rfl⟩

/-- A clone covers what its model covers. -/
theorem covers_vmaCloneFrom {child parent : List Vma} {k : Kmalloc}
    (hret : ¬(vmaCloneFrom child parent k).2.1 < 0) :
    AreasCover (child ++ parent) (vmaCloneFrom child parent k).1 := by
  induction parent generalizing child k with
  | nil =>
    rw [List.append_nil]
    exact .refl child
  | cons current rest ih =>
    rw [vmaCloneFrom] at hret ⊢
    have hadd := covers_vmaAdd child current.start current.end current.flags k
    have hcases := vmaAdd_cases child current.start current.end current.flags k
    have hholds := @vmaAdd_holds child current.start current.end current.flags k
    generalize vmaAdd child current.start current.end current.flags k = res at hret hadd hcases hholds ⊢
    obtain ⟨child', ret, k'⟩ := res
    dsimp only at hret hadd hcases hholds ⊢
    by_cases hfail : ret < 0
    · rw [if_pos hfail] at hret
      exact absurd (show (-eNoMem : Int) < 0 by decide) hret
    rw [if_neg hfail] at hret ⊢
    refine AreasCover.trans ?_ (ih hret)
    intro v hv page hpage hv'
    rcases List.mem_append.mp hv with hold | hnew
    · obtain ⟨u, hu, hrest⟩ := hadd v hold page hpage hv'
      exact ⟨u, List.mem_append_left _ hu, hrest⟩
    rcases List.mem_cons.mp hnew with rfl | hlater
    · -- the rounded area holds every page of the area
      have hend : v.end ≤ kernelSpaceStart := by
        rcases hcases with ⟨-, hbad⟩ | ⟨-, hend, -⟩
        · exact absurd hbad hfail
        · exact hend
      have hlow : pageDown v.start ≤ page := (pageDown_le _).trans hv'.1
      have hhigh : page < pageUp v.end :=
        hv'.2.trans_le (le_pageUp (hend.trans kernelSpaceStart_le_lastPage))
      obtain ⟨u, hu, hrest⟩ := hholds hfail hlow hhigh
      exact ⟨u, List.mem_append_left _ hu, hrest⟩
    · exact ⟨v, List.mem_append_right _ hlater, hv', rfl⟩

theorem covers_vmaClone {vmas : List Vma} {k : Kmalloc} (hret : ¬(vmaClone vmas k).2.1 < 0) :
    AreasCover vmas (vmaClone vmas k).1 :=
  covers_vmaCloneFrom  hret

section Pages

variable {R : Word → Word → Prop} {m m' : Machine} {pd : Nat} {vmas vmas' : List Vma}

theorem PagesAllowed.covers (h : PagesAllowed R m pd vmas) (hcovers : AreasCover vmas vmas') :
    PagesAllowed R m pd vmas' := by
  intro i hi j hj w hw
  obtain ⟨v, hv, hholds, hright⟩ := h i hi j hj w hw
  obtain ⟨u, hu, hholds', hflags⟩ := hcovers v hv _ (entryPage_mod i j) hholds
  rw [← hflags] at hright
  exact ⟨u, hu, hholds', hright⟩

theorem Allowed.cow (hR : PageRights R) {page : Nat} {w : Word} (h : Allowed R vmas page w) :
    Allowed R vmas page (cowEntry w) := by
  obtain ⟨v, hv, hholds, hright⟩ := h
  exact ⟨v, hv, hholds, hR.cow _ _ hright⟩

/-- The entries of a fork's child are those of its parent in copy-on-write form. -/
theorem PagesAllowed.cloned (hR : PageRights R) (h : PagesAllowed R m pd vmas) {child : Nat}
    (hchild : VmInv.ChildEntries m m' pd child) : PagesAllowed R m' child vmas := by
  intro i hi j hj w hw
  rcases hchild i hi j hj with hnone | hcow
  · rw [hnone] at hw
    cases hw
  · rw [hcow, Option.map_eq_some_iff] at hw
    obtain ⟨w₀, hw₀, rfl⟩ := hw
    exact (h i hi j hj w₀ hw₀).cow hR

/-- Entries that stay, or take their copy-on-write form. -/
theorem PagesAllowed.kept (hR : PageRights R) (h : PagesAllowed R m pd vmas)
    (hkept : EntriesKept m m' pd) : PagesAllowed R m' pd vmas := by
  intro i hi j hj w hw
  rcases hkept i hi j hj with hsame | hcow
  · rw [hsame] at hw
    exact h i hi j hj w hw
  · rw [hcow, Option.map_eq_some_iff] at hw
    obtain ⟨w₀, hw₀, rfl⟩ := hw
    exact (h i hi j hj w₀ hw₀).cow hR

theorem permits_of_writable {v : Vma} (h : writableArea v = true) (w : Word) : Permits v.flags w := by
  unfold writableArea at h
  simp only [Bool.and_eq_true] at h
  exact ⟨h.1.1, fun _ => h.1.2⟩

/-- A page made on demand is writable only in an area that is. -/
theorem permits_demand {v : Vma} {n : Nat} (hn : n < 1048576)
    (hread : hasFlag v.flags vmaRead = true) :
    Permits v.flags (frameAddr n ||| demandFlags v) := by
  refine ⟨hread, fun hwrite => ?_⟩
  rw [hasFlag_or, hasFlag_frameAddr hn (by decide), Bool.false_or] at hwrite
  unfold demandFlags at hwrite
  by_contra hro
  rw [if_neg hro] at hwrite
  exact absurd hwrite (by decide)

/-- The entry of the address of a fault stays, or an area that holds the page permits it. -/
theorem VmInv.pageFaultHandler_site {pds : Finset Nat} {own : Nat → Owner} (h : VmInv m pds own)
    {task : FaultTask} {addr : Nat} {code : FaultCode} (hpd : pd ∈ pds)
    (htask : task.pdirVirt = some pd) (haddr : addr < kernelSpaceStart)
    (hcode : code.present = false →
      siteEntry m (pd, dirIndex addr, tableIndex addr) = none) :
    siteEntry (EnclaveOS.pageFaultHandler m (some task) addr code).1
        (pd, dirIndex addr, tableIndex addr) = siteEntry m (pd, dirIndex addr, tableIndex addr) ∨
      ∃ v ∈ task.vmaHead, v.Holds (pageDown addr) ∧
        ∀ w, siteEntry (EnclaveOS.pageFaultHandler m (some task) addr code).1
          (pd, dirIndex addr, tableIndex addr) = some w → Permits v.flags w := by
  have hfound : ∀ {v}, vmaFind task.vmaHead addr = some v →
      v ∈ task.vmaHead ∧ v.Holds (pageDown addr) := fun hfind => vmaFindPage_mem hfind
  rcases @pageFaultHandler_machine pd m task addr code htask haddr with
    hsame | hresolved | ⟨hpresent, reasons, hdemand⟩
  · rw [hsame]
    exact Or.inl rfl
  · rw [hresolved]
    rcases vmmHandleUserWriteFault_area m task addr with hsame | ⟨v, hfind, harea⟩
    · rw [hsame]
      exact Or.inl rfl
    · obtain ⟨hv, hholds⟩ := hfound hfind
      exact Or.inr ⟨v, hv, hholds, fun w _ => permits_of_writable harea w⟩
  · rw [hdemand]
    have hnone := hcode hpresent
    rcases h.demandPage_cases task.vmaHead code.rw reasons hpd haddr hnone with
      ⟨m', own', reason, hres, -, hentry⟩ | ⟨m', own', v, n, hres, hfind, hread, hmax, hwritten, -⟩
    · rw [hres, hnone]
      exact Or.inl hentry
    · rw [hres]
      obtain ⟨hv, hholds⟩ := hfound hfind
      refine Or.inr ⟨v, hv, hholds, fun w hw => ?_⟩
      change siteEntry m' _ = some w at hw
      rw [hwritten.entries _ (index_mem_userSites hpd haddr), Function.update_self, if_pos ((mapFlags_demand v).mapped n)] at hw
      cases hw
      exact permits_demand hmax hread

/-- A page fault of the process itself. -/
theorem PagesAllowed.fault {pds : Finset Nat} {own : Nat → Owner} (hR : PageRights R)
    (hinv : VmInv m pds own) {task : FaultTask} {addr : Nat} {code : FaultCode} (hpd : pd ∈ pds)
    (htask : task.pdirVirt = some pd) (haddr : addr < kernelSpaceStart)
    (hcode : code.present = false →
      siteEntry m (pd, dirIndex addr, tableIndex addr) = none)
    (h : PagesAllowed R m pd task.vmaHead) :
    PagesAllowed R (pageFaultHandler m (some task) addr code).1 pd task.vmaHead := by
  obtain ⟨own', hstep⟩ := @VmInv.pageFaultHandler _ _ _ _ hinv task addr code hpd htask haddr hcode
  intro i hi j hj w hw
  by_cases hsite : (pd, i, j) = (pd, dirIndex addr, tableIndex addr)
  · obtain ⟨rfl, rfl⟩ := Prod.mk.inj (Prod.mk.inj hsite).2
    rcases hinv.pageFaultHandler_site hpd htask haddr hcode with hsame | ⟨v, hv, hholds, hright⟩
    · exact h _ hi _ hj w (hsame ▸ hw)
    · rw [entryPage_index]
      exact ⟨v, hv, hholds, hR.permits _ _ (hright w hw)⟩
  · rw [hstep.entries _ (mem_userSites.mpr ⟨hpd, hi, hj⟩) hsite] at hw
    exact h i hi j hj w hw

end Pages

section Walks

variable {start stop page : Nat} {newFlags : Word} {vmas : List Vma} {v : Vma}

/-- A page outside of the range keeps its area. -/
theorem vmaUnmapRange_holds (k : Kmalloc) (hv : v ∈ vmas) (hholds : v.Holds page)
    (hout : ¬(start ≤ page ∧ page < stop)) :
    ∃ u ∈ (vmaUnmapRange start stop vmas k).1, u.Holds page ∧ u.flags = v.flags := by
  cases (unmap_walks_any start stop).leaves hv k with
  | inl hparts =>
    obtain ⟨u, hu, hu'⟩ := exists_of_flagsAt ((flagsAt_unmapPieces hholds).trans (if_neg hout))
    exact ⟨u, hparts u hu, hu'⟩
  | inr hstays => exact ⟨v, hstays.1, hholds, rfl⟩

/-- The walk fails only inside an area that reaches over both ends of the range, and leaves it. -/
theorem vmaUnmapRange_failed {k : Kmalloc} (hret : (vmaUnmapRange start stop vmas k).2.1 < 0) :
    ∃ u ∈ vmas, u.start < start ∧ stop < u.end ∧ u ∈ (vmaUnmapRange start stop vmas k).1 := by
  obtain ⟨hzero, -⟩ | ⟨-, front, v, back, ⟨rfl, hbefore, hstops⟩, hlist⟩ :=
    (unmap_walks_any start stop).cases vmas k
  · omega
  · have hin : v.start < start ∧ stop < v.end := by
      by_contra hin
      rw [unmapNeeded, if_neg hin, ite_self, Nat.add_zero, hbefore] at hstops
      cases hstops
    exact ⟨v, by simp, hin.1, hin.2, by simp [hlist]⟩

/-- A page keeps an area; inside the range its flags may be the new ones, and they are after a walk
that does not fail. -/
theorem vmaProtectRange_holds (k : Kmalloc) (hv : v ∈ vmas) (hholds : v.Holds page) :
    ∃ u ∈ (vmaProtectRange start stop newFlags vmas k).1, u.Holds page ∧
      (u.flags = v.flags ∧
          (start ≤ page → page < stop → (vmaProtectRange start stop newFlags vmas k).2.1 < 0) ∨
        u.flags = vmaProtectFlags v newFlags ∧ start ≤ page ∧ page < stop) := by
  cases (protect_walks start stop newFlags).leaves hv k with
  | inl hparts =>
    obtain ⟨u, hu, hu', hflags⟩ :=
      exists_of_flagsAt (@flagsAt_protectPieces start stop page newFlags v hholds)
    refine ⟨u, hparts u hu, hu', ?_⟩
    rw [hflags]
    by_cases hin : start ≤ page ∧ page < stop
    · exact Or.inr ⟨if_pos hin, hin⟩
    · exact Or.inl ⟨if_neg hin, fun hlow hhigh => absurd ⟨hlow, hhigh⟩ hin⟩
  | inr hstays =>
    refine ⟨v, hstays.1, hholds, Or.inl ⟨rfl, fun _ _ => ?_⟩⟩
    rw [hstays.2]
    decide

end Walks

end EnclaveOS
