import EnclaveOS.Process.OwnerRuns
import EnclaveOS.Process.SpaceSteps

/-!
# RightsRuns - the pages and the areas over whole runs

Every step of the system keeps each mapped page of a process in an area that allows its entry, as
long as the step gives up no area, and no right of an area, whose pages stay mapped.  Which steps do
is a condition on the state before the step.
-/

namespace EnclaveOS

open PageWord RefCount

/-- Where a split fails for lack of a node, the area that was to be split allows the pages of the
range, which stay mapped. -/
def MunmapAllowed (R : Word → Word → Prop) (m : Machine) (pd : Nat) (vmas : List Vma)
    (addr len : Nat) (k : Kmalloc) : Prop :=
  len ≠ 0 → (vmaUnmapRange (pageDown addr) (rangeEnd addr len) vmas k).2.1 < 0 →
    ∀ v ∈ vmas, v.start < pageDown addr → rangeEnd addr len < v.end →
      ∀ i < 768, ∀ j < 1024, ∀ w, siteEntry m (pd, i, j) = some w →
        pageDown addr ≤ entryPage i j → entryPage i j < rangeEnd addr len → R v.flags w

/-- The checks that `sys_mprotect` makes before it edits the areas. -/
structure MprotectAccepted (vmas : List Vma) (addr len : Nat) (prot : Word) : Prop where
  nonempty : len ≠ 0
  prot : ¬(hasFlag prot protWrite ∧ hasFlag prot protExec)
  bounds : ¬(pageDown addr ≥ kernelSpaceStart ∨ rangeEnd addr len > userSpaceEnd + 1)
  meets : vmaIntersects vmas (pageDown addr) (rangeEnd addr len) none = true

/-- The new flags allow the entries that the mapped pages of the range have afterwards: the old ones
where the call fails for lack of a node, the new ones otherwise. -/
def MprotectAllowed (R : Word → Word → Prop) (m : Machine) (pd : Nat) (vmas : List Vma)
    (addr len : Nat) (prot : Word) (k : Kmalloc) : Prop :=
  MprotectAccepted vmas addr len prot →
    ∀ v ∈ vmas, ∀ i < 768, ∀ j < 1024, ∀ w, siteEntry m (pd, i, j) = some w →
      pageDown addr ≤ entryPage i j → entryPage i j < rangeEnd addr len →
        R (vmaProtectFlags v (protVmaFlags prot))
          (if (vmaProtectRange (pageDown addr) (rangeEnd addr len) (protVmaFlags prot) vmas k).2.1 < 0
            then w else protectedEntry w (protPteFlags prot))

/-- No page of the heap is mapped at or above the new break. -/
def BrkFree (m : Machine) (pd : Nat) (vmas : List Vma) (newBrk : Nat) : Prop :=
  newBrk ≠ 0 → ∀ pos heap, heapVma vmas = some (pos, heap) →
    ∀ i < 768, ∀ j < 1024, newBrk ≤ entryPage i j → heap.Holds (entryPage i j) →
      siteEntry m (pd, i, j) = none

section Calls

variable {R : Word → Word → Prop} {m : Machine} {pds : Finset Nat} {own : Nat → Owner} {pd : Nat}
  {vmas : List Vma}

/-- The pages of the loops are the page addresses of the range. -/
theorem entryPage_mem_pageList {addr stop i j : Nat} :
    entryPage i j ∈ pageList (pageDown addr) stop ↔
      pageDown addr ≤ entryPage i j ∧ entryPage i j + 4096 ≤ stop := by
  have hpage := entryPage_mod i j
  have hstart := pageDown_mod addr
  rw [mem_pageList]
  constructor
  · rintro ⟨n, hn, heq⟩
    omega
  · rintro ⟨hlow, hhigh⟩
    exact ⟨(entryPage i j - pageDown addr) / 4096, by omega, by omega⟩

/-- `sys_munmap`: the pages of the range are unmapped, the others keep their areas. -/
theorem PagesAllowed.munmap {S : Nat → Nat → Prop} (ha : PagesAllowed R m pd vmas)
    (h : VmInv m pds own) (hk : KernelHalf m own S) (hpd : pd ∈ pds) {addr len : Nat} {k : Kmalloc}
    (hprivate : MunmapPrivate m pd vmas addr len k) (hallowed : MunmapAllowed R m pd vmas addr len k) :
    TablesWritten m pd (sysMunmap m pd vmas addr len k).1 ∧
      PagesAllowed R (sysMunmap m pd vmas addr len k).1 pd (sysMunmap m pd vmas addr len k).2.1 := by
  unfold sysMunmap
  by_cases hlen : len = 0
  · rw [if_pos hlen]
    exact ⟨.refl m pd, ha⟩
  rw [if_neg hlen]
  dsimp only
  have hout : ∀ {page w}, Allowed R vmas page w →
      ¬(pageDown addr ≤ page ∧ page < rangeEnd addr len) →
        Allowed R (vmaUnmapRange (pageDown addr) (rangeEnd addr len) vmas k).1 page w := by
    rintro page w ⟨v, hv, hholds, hright⟩ hout
    obtain ⟨u, hu, huholds, hflags⟩ := vmaUnmapRange_holds k hv hholds hout
    rw [← hflags] at hright
    exact ⟨u, hu, huholds, hright⟩
  by_cases hret : (vmaUnmapRange (pageDown addr) (rangeEnd addr len) vmas k).2.1 < 0
  · rw [if_pos hret]
    refine ⟨.refl m pd, fun i hi j hj w hw => ?_⟩
    by_cases hin : pageDown addr ≤ entryPage i j ∧ entryPage i j < rangeEnd addr len
    · -- the area that could not be split reaches over the whole range
      obtain ⟨u, hu, hlow, hhigh, hleft⟩ := vmaUnmapRange_failed hret
      exact ⟨u, hleft, ⟨by omega, by omega⟩,
        hallowed hlen hret u hu hlow hhigh i hi j hj w hw hin.1 hin.2⟩
    · exact hout (ha i hi j hj w hw) hin
  · rw [if_neg hret]
    obtain ⟨hwritten, hentries⟩ := unmapPages_edited h hk hpd (pageList_nodup _ _)
      (fun y hy => by
        have hrange := mem_pageList_aligned (pageDown_mod addr) hy
        exact ⟨hrange.2.2, hrange.2.1.trans (rangeEnd_lt addr len)⟩)
      (hprivate hlen (by omega))
    refine ⟨hwritten, fun i hi j hj w hw => ?_⟩
    rw [hentries i hi j hj] at hw
    by_cases hin : entryPage i j ∈ pageList (pageDown addr) (rangeEnd addr len)
    · rw [if_pos hin] at hw
      cases hw
    · rw [if_neg hin] at hw
      refine hout (ha i hi j hj w hw) fun hrange => hin ?_
      have hpage := entryPage_mod i j
      have hstop : rangeEnd addr len % 4096 = 0 := by
        have hlow := pageDown_mod addr
        have hhigh := pageUp_mod len
        unfold rangeEnd wrap32
        omega
      exact entryPage_mem_pageList.mpr ⟨hrange.1, by omega⟩

/-- `sys_mprotect`: the pages keep their areas, with the new flags in the range. -/
theorem PagesAllowed.mprotect (ha : PagesAllowed R m pd vmas) (h : VmInv m pds own) (hpd : pd ∈ pds)
    {addr len : Nat} {prot : Word} {k : Kmalloc}
    (hallowed : MprotectAllowed R m pd vmas addr len prot k) :
    TablesWritten m pd (sysMprotect m pd vmas addr len prot k).1 ∧
      PagesAllowed R (sysMprotect m pd vmas addr len prot k).1 pd
        (sysMprotect m pd vmas addr len prot k).2.1 := by
  have hsame : TablesWritten m pd m ∧ PagesAllowed R m pd vmas := ⟨.refl m pd, ha⟩
  unfold sysMprotect
  by_cases hlen : len = 0
  · rw [if_pos hlen]
    exact hsame
  rw [if_neg hlen]
  by_cases hprot : hasFlag prot protWrite ∧ hasFlag prot protExec
  · rw [if_pos hprot]
    exact hsame
  rw [if_neg hprot]
  by_cases hbounds : pageDown addr ≥ kernelSpaceStart ∨ rangeEnd addr len > userSpaceEnd + 1
  · rw [if_pos hbounds]
    exact hsame
  rw [if_neg hbounds]
  by_cases hmeets : (!vmaIntersects vmas (pageDown addr) (rangeEnd addr len) none) = true
  · rw [if_pos hmeets]
    exact hsame
  rw [if_neg hmeets]
  dsimp only
  have hright := hallowed ⟨hlen, hprot, hbounds, by simpa using hmeets⟩
  have hpiece : ∀ {page v}, v ∈ vmas → v.Holds page → _ := fun {page v} hv hholds =>
    @vmaProtectRange_holds (pageDown addr) (rangeEnd addr len) page (protVmaFlags prot) vmas v k hv
      hholds
  by_cases hret :
      (vmaProtectRange (pageDown addr) (rangeEnd addr len) (protVmaFlags prot) vmas k).2.1 < 0
  · rw [if_pos hret]
    refine ⟨.refl m pd, fun i hi j hj w hw => ?_⟩
    obtain ⟨v, hv, hholds, hold⟩ := ha i hi j hj w hw
    obtain ⟨u, hu, huholds, ⟨hflags, -⟩ | ⟨hflags, hlow, hhigh⟩⟩ := hpiece hv hholds
    · rw [← hflags] at hold
      exact ⟨u, hu, huholds, hold⟩
    · have hnew := hright v hv i hi j hj w hw hlow hhigh
      rw [if_pos hret, ← hflags] at hnew
      exact ⟨u, hu, huholds, hnew⟩
  · rw [if_neg hret]
    obtain ⟨hwritten, hentries⟩ := protectPages_edited h hpd (mapFlags_prot prot)
      (pageList_nodup (pageDown addr) (rangeEnd addr len)) (fun y hy => by
        have hrange := mem_pageList_aligned (pageDown_mod addr) hy
        unfold kernelSpaceStart userSpaceEnd at *
        omega)
    refine ⟨hwritten, fun i hi j hj w hw => ?_⟩
    rw [hentries i hi j hj] at hw
    by_cases hin : entryPage i j ∈ pageList (pageDown addr) (rangeEnd addr len)
    · rw [if_pos hin, Option.map_eq_some_iff] at hw
      obtain ⟨w₀, hw₀, rfl⟩ := hw
      obtain ⟨hlow, hhigh⟩ := entryPage_mem_pageList.mp hin
      obtain ⟨v, hv, hholds, -⟩ := ha i hi j hj w₀ hw₀
      obtain ⟨u, hu, huholds, ⟨-, hfailed⟩ | ⟨hflags, -⟩⟩ := hpiece hv hholds
      · exact absurd (hfailed hlow (by omega)) hret
      · have hnew := hright v hv i hi j hj w₀ hw₀ hlow (by omega)
        rw [if_neg hret, ← hflags] at hnew
        exact ⟨u, hu, huholds, hnew⟩
    · rw [if_neg hin] at hw
      obtain ⟨v, hv, hholds, hold⟩ := ha i hi j hj w hw
      obtain ⟨u, hu, huholds, ⟨hflags, -⟩ | ⟨hflags, hlow, hhigh⟩⟩ := hpiece hv hholds
      · rw [← hflags] at hold
        exact ⟨u, hu, huholds, hold⟩
      · -- a page of the range is one of the loop
        have hpage := entryPage_mod i j
        have hstop : rangeEnd addr len % 4096 = 0 := by
          have hdown := pageDown_mod addr
          have hup := pageUp_mod len
          unfold rangeEnd wrap32
          omega
        exact absurd (entryPage_mem_pageList.mpr ⟨hlow, by omega⟩) hin

/-- `sys_brk`: the heap area keeps its pages as long as those it gives back are unmapped. -/
theorem PagesAllowed.brk (ha : PagesAllowed R m pd vmas) (p : Pmm) {newBrk : Nat} {k : Kmalloc}
    (hfree : BrkFree m pd vmas newBrk) : PagesAllowed R m pd (sysBrk p vmas newBrk k).1 := by
  rcases sysBrk_vmas p vmas newBrk k with
    hsame | ⟨hzero, -, ⟨-, hadd⟩ | ⟨pos, heap, hheap, hset, -⟩⟩
  · rw [hsame]
    exact ha
  · rw [hadd]
    exact ha.covers (covers_vmaAdd _ _ _ _ _)
  · rw [hset]
    obtain ⟨hpos, -⟩ := heapVma_some hheap
    intro i hi j hj w hw
    obtain ⟨v, hv, hholds, hright⟩ := ha i hi j hj w hw
    obtain ⟨n, hn⟩ := List.getElem?_of_mem hv
    by_cases hn' : n = pos
    · subst hn'
      obtain rfl := Option.some.inj (hpos.symm.trans hn)
      have hlt := (List.getElem?_eq_some_iff.mp hpos).1
      refine ⟨_, List.mem_set hlt _, ⟨hholds.1, ?_⟩, hright⟩
      by_contra hbeyond
      have hnone := hfree hzero n heap hheap i hi j hj (Nat.not_lt.mp hbeyond) hholds
      rw [hnone] at hw
      cases hw
    · refine ⟨v, List.mem_of_getElem? (i := n) ?_, hholds, hright⟩
      rw [List.getElem?_set_ne (Ne.symm hn'), hn]

end Calls

/-- A step gives up no area, and no right of an area, whose pages stay mapped, and an image that is
loaded asks for no page that its areas do not allow. -/
def SysOp.RespectsAreas (R : Word → Word → Prop) (s : System) : SysOp → Prop
  | .startInit file _ => SegmentsAllowed R file
  | .exec _ file _ => ∀ f, file = .ok f → SegmentsAllowed R f
  | .munmap p addr len k => ∀ task pd, s.running p = some (task, pd) →
      MunmapAllowed R s.machine pd task.vmaHead addr len k
  | .mprotect p addr len prot k => ∀ task pd, s.running p = some (task, pd) →
      MprotectAllowed R s.machine pd task.vmaHead addr len prot k
  | .brk p newBrk _ => ∀ task pd, s.running p = some (task, pd) →
      BrkFree s.machine pd task.vmaHead newBrk
  | _ => True

/-- The mapped pages of every process lie in areas of it that allow their entries. -/
def System.AllAllowed (R : Word → Word → Prop) (s : System) : Prop :=
  ∀ p task pd, s.running p = some (task, pd) → PagesAllowed R s.machine pd task.vmaHead

section Step

variable {R : Word → Word → Prop} {s s' : System} {pds : Finset Nat} {own : Nat → Owner} {p pd : Nat}
  {task : Process}

/-- One process changes, and the entries of the others stay. -/
theorem System.AllAllowed.setProc (hR : PageRights R) (h : s.AllAllowed R) {m : Machine}
    {new : Option Process}
    (hothers : ∀ q t d, q ≠ p → s.running q = some (t, d) → EntriesKept s.machine m d)
    (hown : ∀ t d, new = some t → t.pdirVirt = some d → PagesAllowed R m d t.vmaHead) :
    ((s.setMachine m).setProc p new).AllAllowed R := by
  intro q t d hrun
  obtain ⟨hproc, hd⟩ := System.running_eq_some.mp hrun
  rw [System.setProc_proc, System.setMachine_proc] at hproc
  rw [System.setProc_machine, System.setMachine_machine]
  by_cases hq : q = p
  · rw [if_pos hq] at hproc
    exact hown t d hproc hd
  · rw [if_neg hq] at hproc
    have hold := System.running_eq_some.mpr ⟨hproc, hd⟩
    exact (h q t d hold).kept hR (hothers q t d hq hold)

theorem System.AllAllowed.setVmas (hR : PageRights R) (h : s.AllAllowed R) {m : Machine}
    {vmas : List Vma} (hrun : s.running p = some (task, pd))
    (hothers : ∀ q t d, q ≠ p → s.running q = some (t, d) → EntriesKept s.machine m d)
    (hpages : PagesAllowed R m pd vmas) : ((s.setMachine m).setVmas p task vmas).AllAllowed R := by
  refine h.setProc hR hothers ?_
  rintro t d ⟨⟩ hd
  obtain rfl := Option.some.inj ((System.running_eq_some.mp hrun).2.symm.trans hd)
  exact hpages

/-- `sys_mmap` takes no area away. -/
theorem PagesAllowed.mmap {m : Machine} {vmas : List Vma} (ha : PagesAllowed R m pd vmas)
    (addr len : Nat) (prot flags : Word) (k : Kmalloc) :
    PagesAllowed R m pd (sysMmap vmas addr len prot flags k).1 := by
  rcases sysMmap_vmas vmas addr len prot flags k with hsame | ⟨-, a, -, hadd⟩
  · rw [hsame]
    exact ha
  · rw [hadd]
    exact ha.covers (covers_vmaAdd _ _ _ _ _)

namespace SysInv

/-- The directory of another process is another one. -/
theorem other_dir (h : SysInv s pds own) (hrun : s.running p = some (task, pd)) {q d : Nat}
    {t : Process} (hq : q ≠ p) (hrun' : s.running q = some (t, d)) : d ∈ pds ∧ d ≠ pd := by
  refine ⟨h.mem_of_running hrun', ?_⟩
  rintro rfl
  obtain ⟨hproc, hd⟩ := System.running_eq_some.mp hrun
  obtain ⟨hproc', hd'⟩ := System.running_eq_some.mp hrun'
  exact hq (h.dirInj q p t task d hproc' hproc hd' hd)

theorem others_written (h : SysInv s pds own) (hrun : s.running p = some (task, pd)) {m : Machine}
    (hwritten : TablesWritten s.machine pd m) {q d : Nat} {t : Process} (hq : q ≠ p)
    (hrun' : s.running q = some (t, d)) : EntriesKept s.machine m d := by
  obtain ⟨hd, hne⟩ := h.other_dir hrun hq hrun'
  exact (hwritten.space h.inv (h.mem_of_running hrun) hd hne).entries

/-- The end of a task, after a change of the memory that leaves the other user halves. -/
theorem exitTask_allowed (h : SysInv s pds own) (hR : PageRights R) (hall : s.AllAllowed R)
    (hrun : s.running p = some (task, pd)) {m : Machine} {own' : Nat → Owner}
    (hinv : VmInv m pds own') (hk : KernelFrame s.machine own m own')
    (hothers : ∀ d ∈ pds, d ≠ pd → EntriesKept s.machine m d) :
    ((s.setMachine m).exitTask p task).AllAllowed R := by
  have hmem := h.mem_of_running hrun
  have hboot : pd ≠ m.bootPageDirectory := by
    rw [hk.boot]
    exact h.ne_boot hmem
  unfold System.exitTask
  rw [System.setMachine_machine, releaseMemory_eq (System.running_eq_some.mp hrun).2 hboot]
  refine hall.setProc hR (fun q t d hq hrun' => ?_) ?_
  · obtain ⟨hd, hne⟩ := h.other_dir hrun hq hrun'
    exact (hothers d hd hne).trans (hinv.space_destroy hmem hd hne).entries
  · rintro t d ⟨⟩ ⟨⟩

/-- An access that goes through, or its fault. -/
theorem access_allowed (h : SysInv s pds own) (hR : PageRights R) (hall : s.AllAllowed R)
    (hrun : s.running p = some (task, pd)) {addr : Nat} (haddr : addr < kernelSpaceStart) {a : Access}
    {us : Bool} (haccess : s.Accessed p task pd addr us a s') : s'.AllAllowed R := by
  have hmem := h.mem_of_running hrun
  have hpd := (System.running_eq_some.mp hrun).2
  have hfault : ∀ {code}, cpuFault kernelCr0 s.machine pd addr a.isWrite us = some code →
      ∀ {m outcome}, pageFaultHandler s.machine (some task.toFaultTask) addr code = (m, outcome) →
      (∃ own', VmInv.FaultStep s.machine pds own pd (dirIndex addr) (tableIndex addr) m own') ∧
      PagesAllowed R m pd task.vmaHead ∧ ∀ d ∈ pds, d ≠ pd → EntriesKept s.machine m d := by
    intro code hcode m outcome hres
    have hsite := siteEntry_of_fault hcode
    obtain ⟨own', hfault⟩ :=
      @VmInv.pageFaultHandler _ _ _ _ h.inv task.toFaultTask _ _ hmem hpd haddr hsite
    have hallowed : PagesAllowed R s.machine pd task.toFaultTask.vmaHead := hall p task pd hrun
    have hown := PagesAllowed.fault hR h.inv hmem hpd haddr hsite hallowed
    rw [hres] at hfault hown
    exact ⟨⟨own', hfault⟩, hown, fun d hd hne => (hfault.space h.inv hd hne).entries⟩
  cases haccess with
  | load => exact hall
  | store value hcode =>
    have hpage := h.page_of_access hmem haddr hcode
    intro q t d hrun'
    refine (hall q t d hrun').kept hR fun i hi j hj => Or.inl ?_
    exact h.inv.siteEntry_congr_of_ne (Or.inr (Or.inr hpage))
      (fun g hg => Machine.storeBytes_mem_of_ne hg _ _)
      (mem_userSites.mpr ⟨h.mem_of_running hrun', hi, hj⟩)
  | resumed hcode hres =>
    obtain ⟨-, hown, hothers⟩ := hfault hcode hres
    intro q t d hrun'
    by_cases hq : q = p
    · subst hq
      obtain ⟨rfl, rfl⟩ := Prod.mk.inj (Option.some.inj (hrun.symm.trans hrun'))
      exact hown
    · obtain ⟨hd, hne⟩ := h.other_dir hrun hq hrun'
      exact (hall q t d hrun').kept hR (hothers d hd hne)
  | killed hcode hres =>
    obtain ⟨⟨own', hfault⟩, -, hothers⟩ := hfault hcode hres
    exact h.exitTask_allowed hR hall hrun hfault.inv hfault.kernel hothers

/-- Every step that respects the owners and the areas keeps each mapped page in an area. -/
theorem pagesAllowed_step (h : SysInv s pds own) (hR : PageRights R) (hall : s.AllAllowed R)
    {op : SysOp} (hpossible : op.Possible s) (hkeeps : op.KeepsOwners s)
    (hareas : op.RespectsAreas R s) (hstep : op.step s = some s') : s'.AllAllowed R := by
  have hcard : pds.card < 0xFFFF := lt_of_le_of_lt h.card_le (by decide)
  cases SysOp.stepped hstep with
  | startInit hinit =>
    obtain ⟨hspaces, dir, hdir, -, hpages⟩ := startInit_spaces hR h.inv h.half hkeeps hareas hinit
    refine hall.setProc hR (fun q t d _ hrun => (hspaces d (h.mem_of_running hrun)).entries) ?_
    rintro t d ⟨⟩ hd
    obtain rfl := Option.some.inj (hdir.symm.trans hd)
    exact hpages
  | access hrun haccess => exact h.access_allowed hR hall hrun hpossible haccess
  | forkFailed hrun hfork =>
    obtain ⟨hspaces, -⟩ :=
      taskForkMemory_spaces hR h.inv h.half (h.mem_of_running hrun) hcard hfork
    intro q t d hrun'
    exact (hall q t d hrun').kept hR (hspaces d (h.mem_of_running hrun')).entries
  | forked hrun hfork =>
    obtain ⟨hspaces, hchild⟩ :=
      taskForkMemory_spaces hR h.inv h.half (h.mem_of_running hrun) hcard hfork
    obtain ⟨dir, hdir, -, hpages⟩ := hchild _ _ rfl
    refine hall.setProc hR
      (fun q t d _ hrun' => (hspaces d (h.mem_of_running hrun')).entries) ?_
    rintro t d ⟨⟩ hd
    obtain rfl := Option.some.inj (hdir.symm.trans hd)
    exact hpages (hall _ _ _ hrun)
  | mmap hrun =>
    exact System.AllAllowed.setVmas hR hall hrun (fun q t d _ _ => .refl s.machine d)
      ((hall _ _ _ hrun).mmap _ _ _ _ _)
  | munmap hrun =>
    obtain ⟨hwritten, hpages⟩ := (hall _ _ _ hrun).munmap h.inv h.half (h.mem_of_running hrun)
      (hkeeps _ _ hrun) (hareas _ _ hrun)
    exact hall.setVmas hR hrun (fun _ _ _ => h.others_written hrun hwritten)
      hpages
  | mprotect hrun =>
    obtain ⟨hwritten, hpages⟩ :=
      (hall _ _ _ hrun).mprotect h.inv (h.mem_of_running hrun) (hareas _ _ hrun)
    exact hall.setVmas hR hrun (fun _ _ _ => h.others_written hrun hwritten)
      hpages
  | brk hrun =>
    exact System.AllAllowed.setVmas hR hall hrun (fun q t d _ _ => .refl s.machine d)
      ((hall _ _ _ hrun).brk s.machine.pmm (hareas _ _ hrun))
  | exec hrun hexec =>
    obtain ⟨hothers, hown⟩ := sysExecMemory_spaces hR h.inv h.half (h.mem_of_running hrun)
      hkeeps hareas hexec
    refine hall.setProc hR (fun q t d hq hrun' => ?_) ?_
    · obtain ⟨hd, hne⟩ := h.other_dir hrun hq hrun'
      exact (hothers d hd hne).entries
    · rintro t d ⟨⟩ ⟨⟩
      rcases hown with ⟨rfl, rfl, hkept⟩ | ⟨-, hpages⟩
      · exact (hall _ _ _ hrun).kept hR hkept.entries
      · exact hpages
  | exit hrun =>
    exact h.exitTask_allowed hR hall hrun h.inv (.refl s.machine own) fun d _ _ => .refl _ d
  | reap hproc hdead =>
    obtain ⟨slot, hslot, -, -, hreap⟩ := h.reapTask_eq hproc
    rw [hreap]
    refine hall.setProc hR (fun q t d _ hrun' => ?_) (by rintro t d ⟨⟩)
    exact (space_freeTask h.inv h.half hslot _ (h.mem_of_running hrun')).entries

end SysInv

end Step

/-- The mapped pages of every process lie in areas that allow their entries, in every state reached
by steps that respect the owners of frames and the areas. -/
theorem SysInv.run_allowed {R : Word → Word → Prop} (hR : PageRights R) {image : BootImage}
    {info : BootInfo} {ram : Nat → Nat → Word} {s₀ s : System}
    (hboot : System.boot image info ram = some s₀)
    (hrun : Reach SysOp.step
      (fun s op => op.Possible s ∧ op.KeepsOwners s ∧ op.RespectsAreas R s) s₀ s) :
    s.AllAllowed R := by
  obtain ⟨own, hstart⟩ := System.boot_inv hboot
  have hall : (∃ pds own, SysInv s pds own) ∧ s.AllAllowed R := by
    refine hrun.invariant (P := fun s => (∃ pds own, SysInv s pds own) ∧ s.AllAllowed R) ?_ ?_
    · refine ⟨⟨∅, own, hstart.sys⟩, fun p task pd hp => ?_⟩
      have hproc := (System.running_eq_some.mp hp).1
      rw [hstart.idle p] at hproc
      cases hproc
    · rintro s op s' ⟨⟨pds, own, hinv⟩, hall⟩ ⟨hpossible, hkeeps, hareas⟩ hstep
      exact ⟨hinv.step hpossible hkeeps hstep,
        hinv.pagesAllowed_step hR hall hpossible hkeeps hareas hstep⟩
  exact hall.2

/-- An access of Ring 3 goes through only where an area that holds the page allows it. -/
def AccessesAllowed (m : Machine) (pd : Nat) (vmas : List Vma) : Prop :=
  ∀ addr < kernelSpaceStart, ∀ rw, cpuFault kernelCr0 m pd addr rw true = none →
    ∃ v ∈ vmas, v.Holds (pageDown addr) ∧ hasFlag v.flags vmaRead = true ∧
      (rw = true → hasFlag v.flags vmaWrite = true)

theorem PagesAllowed.accesses {m : Machine} {pd : Nat} {vmas : List Vma}
    (h : PagesAllowed Permits m pd vmas) : AccessesAllowed m pd vmas := by
  intro addr haddr rw hcode
  unfold cpuFault at hcode
  split_ifs at hcode with hmapped huser hwrite
  have hentry := siteEntry_of_mapped (by simpa using hmapped)
  obtain ⟨v, hv, hholds, hread, hright⟩ :=
    h _ ((dirIndex_lt_768_iff addr).mpr haddr) _ (tableIndex_lt addr) _ hentry
  rw [entryPage_index] at hholds
  refine ⟨v, hv, hholds, hread, fun hrw => hright ?_⟩
  have hwalk : walkFlag m pd addr pageWrite = true := by
    simpa [hrw] using hwrite
  exact (Bool.and_eq_true_iff.mp hwalk).2

/-- The page tables of every process give it no more than its areas do. -/
def System.RightsHold (s : System) : Prop :=
  ∀ p task pd, s.running p = some (task, pd) →
    PagesAllowed Permits s.machine pd task.vmaHead ∧ AccessesAllowed s.machine pd task.vmaHead

/-- In every state reached by steps that give up no area, and no right of an area, whose pages stay
mapped, the page tables of a process give it no more than its areas do. -/
theorem pages_allowed_run {image : BootImage} {info : BootInfo} {ram : Nat → Nat → Word}
    {s₀ s : System} (hboot : System.boot image info ram = some s₀)
    (hrun : Reach SysOp.step
      (fun s op => op.Possible s ∧ op.KeepsOwners s ∧ op.RespectsAreas Permits s) s₀ s) :
    s.RightsHold := by
  intro p task pd hp
  have hallowed := SysInv.run_allowed pageRights_permits hboot hrun p task pd hp
  exact ⟨hallowed, hallowed.accesses⟩

theorem smallFile_allowed : SegmentsAllowed Permits (smallFile 6) := by
  have hall : (elfHeader (smallFile 6)).all fun header => decide
      (∀ h ∈ loadHeaders (smallFile 6) header (List.range header.ePhnum),
        hasFlag h.vmaFlags vmaRead = true ∧ hasFlag h.vmaFlags vmaWrite = true) := by
    decide +kernel
  intro header hheader h hh _ _ n _
  rw [hheader, Option.all_some, decide_eq_true_eq] at hall
  exact ⟨(hall h hh).1, fun _ => (hall h hh).2⟩

/-- The small machine with its first process. -/
theorem pages_allowed_sample : ∃ s, SmallInit 3#32 s ∧ s.RightsHold := by
  obtain ⟨s₀, s, hboot, hstep, hsmall⟩ := smallInit_rw
  have hinit : (SysOp.startInit (smallFile 6) []).Possible s₀ ∧
      (SysOp.startInit (smallFile 6) []).KeepsOwners s₀ ∧
      (SysOp.startInit (smallFile 6) []).RespectsAreas Permits s₀ :=
    ⟨trivial, smallFile_fits, smallFile_allowed⟩
  exact ⟨s, hsmall, pages_allowed_run hboot (.next .start hinit hstep)⟩

/-- The first process takes all rights of its page back, which stays mapped. -/
theorem mprotect_none_leaves_page : ¬∀ (image : BootImage) (info : BootInfo)
    (ram : Nat → Nat → Word) (s₀ s : System), System.boot image info ram = some s₀ →
    Reach SysOp.step (fun s op => op.Possible s) s₀ s → s.RightsHold := by
  intro hall
  obtain ⟨s₀, s, hboot, hstep, hsmall⟩ := smallInit_rw
  have hrun := hsmall.running
  have hframes : frameOf 0x01006007#32 = 4102 := by decide
  have hmachine : (sysMprotect s.machine 4100 (smallVmas 3#32) 0x08048000 4096 0#32 []).1 =
      s.machine.setWord 4102 72 0x01005005#32 := by
    have hloop : (sysMprotect s.machine 4100 (smallVmas 3#32) 0x08048000 4096 0#32 []).1 =
        vmmProtectPageInPd s.machine 4100 0x08048000 (protPteFlags 0#32) := rfl
    rw [hloop, vmmProtectPageInPd_eq, hsmall.pteAt, show dirIndex 0x08048000 = 32 from rfl,
      hsmall.pde, hframes, if_pos (by decide)]
    rfl
  have hvmas : (sysMprotect s.machine 4100 (smallVmas 3#32) 0x08048000 4096 0#32 []).2.1 =
      [⟨0x08048000, 0x08049000, 0#32⟩, ⟨0x10000000, 0x10000000, 3#32⟩,
        ⟨0xBFFEF000, 0xBFFFF000, 3#32⟩] := rfl
  have hnext : SysOp.step s (.mprotect 4107 0x08048000 4096 0#32 []) =
      some ((s.setMachine (s.machine.setWord 4102 72 0x01005005#32)).setVmas 4107
        ⟨⟨some 4100, smallVmas 3#32⟩, kernelStackTop 0⟩ [⟨0x08048000, 0x08049000, 0#32⟩,
          ⟨0x10000000, 0x10000000, 3#32⟩, ⟨0xBFFEF000, 0xBFFFF000, 3#32⟩]) := by
    simp only [SysOp.step, hrun]
    rw [hmachine, hvmas]
  have hinit : (SysOp.startInit (smallFile 6) []).Possible s₀ := trivial
  have hargs : (SysOp.mprotect 4107 0x08048000 4096 0#32 []).Possible s := ⟨by decide, by decide⟩
  obtain ⟨hpages, -⟩ := hall _ _ _ s₀ _ hboot (.next (.next .start hinit hstep) hargs hnext) 4107
    ⟨⟨some 4100, [⟨0x08048000, 0x08049000, 0#32⟩, ⟨0x10000000, 0x10000000, 3#32⟩,
        ⟨0xBFFEF000, 0xBFFFF000, 3#32⟩]⟩, kernelStackTop 0⟩ 4100
    (System.running_eq_some.mpr ⟨by rw [System.setVmas, System.setProc_proc, if_pos rfl], rfl⟩)
  have hentry : siteEntry (s.machine.setWord 4102 72 0x01005005#32) (4100, 32, 72) =
      some 0x01005005#32 := by
    rw [siteEntry_eq_some]
    unfold Machine.pteAt
    rw [Machine.setWord_mem_of_ne (by decide), hsmall.pde, hframes, Machine.setWord_mem_self]
    decide
  obtain ⟨v, hv, ⟨hlow, hhigh⟩, hread, -⟩ := hpages 32 (by decide) 72 (by decide) _ hentry
  simp only [List.mem_cons, List.not_mem_nil, or_false] at hv
  rcases hv with rfl | rfl | rfl
  · exact absurd hread (by decide)
  · exact absurd hlow (by decide)
  · exact absurd hlow (by decide)

end EnclaveOS
