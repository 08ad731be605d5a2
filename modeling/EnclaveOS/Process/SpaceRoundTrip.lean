import EnclaveOS.Memory.SpaceExact
import EnclaveOS.Process.SyscallSpec
import EnclaveOS.Process.SystemBoot

/-!
# SpaceRoundTrip - address spaces of the running system

No page of a process is shared by more processes than there are kernel stacks, so no count
saturates when a directory is cloned.  The allocator is sound when the first process
starts, and stays sound as long as it is called through `pmm.c`.
-/

namespace EnclaveOS

open PageWord

variable {s : System} {m m' : Machine} {pds : Finset Nat} {own : Nat → Owner} {pd : Nat}

/-- `pmm_init` hands out no page. -/
theorem pmmInit_regionStep (info : BootInfo) :
    ∃ n, RegionStep ⟨fun _ => true, fun _ => 0, 0, 0, n, 0, 0⟩ (pmmInit info) := by
  obtain ⟨map, region, modules, kernelStart, kernelEnd⟩ := info
  generalize hp : pmmInit _ = p
  unfold pmmInit at hp
  extract_lets clean freed low kernel block mods at hp
  have hfreed : ∃ n, RegionStep ⟨fun _ => true, fun _ => 0, 0, 0, n, 0, 0⟩ freed := by
    cases map with
    | none => exact ⟨_, .free _ _ _⟩
    | some map =>
      have hall : ∀ (map : List E820Entry) (p : Pmm), RegionStep p (map.foldl (fun p e =>
          if e.type = multibootMemoryAvailable then pmmFreeRegion p e.addr e.len else p) p) := by
        intro map
        induction map with
        | nil => exact .refl
        | cons e rest ih =>
          intro p
          rw [List.foldl_cons]
          split_ifs
          · exact (RegionStep.free _ _ _).trans (ih _)
          · exact ih _
      exact ⟨_, hall map _⟩
  obtain ⟨n, hfreed⟩ := hfreed
  have hkernel : RegionStep freed kernel := (RegionStep.reserve _ _ _).trans (.reserve _ _ _)
  have hblock : RegionStep kernel block := by
    cases region with
    | none => exact .refl _
    | some region => exact .reserve _ _ _
  have hmods : RegionStep block mods := .reserveAll _ _
  have hlast : RegionStep mods p := by
    rw [← hp]
    split_ifs
    · exact .reserve _ _ _
    · exact .refl _
  exact ⟨n, (((hfreed.trans hkernel).trans hblock).trans hmods).trans hlast⟩

theorem pagingReserve_regionStep (image : BootImage) (p : Pmm) :
    RegionStep p (pagingReserve image p) :=
  .reserveAll (pagingRegions image) p

/-- An allocator that handed out no page. -/
theorem Pmm.Sound.unused {p : Pmm} {n : Nat} (hcap : PmmCapped p) (hzero : p.bitmap 0 = true)
    (hstep : RegionStep ⟨fun _ => true, fun _ => 0, 0, 0, n, 0, 0⟩ p) : p.Sound := by
  refine ⟨hcap.limit, hzero, fun f _ => congrFun hstep.refcounts f, ?_⟩
  have hused : p.usedPages = 0 := hstep.usedPages
  rw [hused, Nat.zero_add]
  calc p.freePages.card ≤ (Finset.range p.maxPage).card := Finset.card_filter_le _ _
    _ = p.maxPage := Finset.card_range _
    _ ≤ pmmMaxPages := hcap.limit

theorem pagingReserve_sound (image : BootImage) (info : BootInfo) :
    (pagingReserve image (pmmInit info)).Sound := by
  obtain ⟨hcap, hzero⟩ := pmmInit_spec info
  obtain ⟨hcap', hzero', -⟩ := pagingReserve_spec image hcap hzero
  obtain ⟨n, hinit⟩ := pmmInit_regionStep info
  exact .unused hcap' hzero' (hinit.trans (pagingReserve_regionStep image _))

theorem Machine.allocPage_sound (h : m.pmm.Sound) : m.allocPage.1.pmm.Sound := by
  rcases m.allocPage_cases with halloc | ⟨f, hfree, hlimit, halloc⟩
  · rw [halloc]
    exact h
  · rw [halloc]
    exact ((Pmm.Owes.refl m.pmm).take h hfree hlimit).sound h

theorem ensureTable_sound (h : m.pmm.Sound) (pd i : Nat) : (ensureTable m pd i).1.pmm.Sound := by
  have halloc := Machine.allocPage_sound h
  unfold ensureTable
  split_ifs
  · exact h
  · generalize m.allocPage = res at halloc ⊢
    obtain ⟨m₁, phys⟩ := res
    dsimp only
    split_ifs
    · exact halloc
    · exact halloc

theorem fillFb_sound (h : m.pmm.Sound) {n : Nat} (hfill : fillFb m n = some m') :
    m'.pmm.Sound := by
  have hready := ensureTable_sound h m.bootPageDirectory (1012 + n)
  unfold fillFb fillTable at hfill
  generalize ensureTable m m.bootPageDirectory (1012 + n) = res at hready hfill
  obtain ⟨m₁, ok⟩ := res
  cases ok with
  | false => cases hfill
  | true =>
    cases hfill
    exact hready

/-- The allocator when the first process starts. -/
theorem System.boot_sound {image : BootImage} {info : BootInfo} {ram : Nat → Nat → Word}
    (hboot : System.boot image info ram = some s) : s.machine.pmm.Sound := by
  have hloop : ∀ (l : List Nat) (m m' : Machine), m.pmm.Sound → l.foldlM fillFb m = some m' →
      m'.pmm.Sound := by
    intro l
    induction l with
    | nil =>
      intro m m' h hm'
      cases hm'
      exact h
    | cons n l ih =>
      intro m m' h hm'
      rw [List.foldlM_cons] at hm'
      obtain ⟨m₁, hfill, hrest⟩ := Option.bind_eq_some_iff.mp hm'
      exact ih m₁ m' (fillFb_sound h hfill) hrest
  unfold System.boot at hboot
  obtain ⟨m, hkernel, htasking⟩ := Option.bind_eq_some_iff.mp hboot
  obtain ⟨m₁, hmain, hs⟩ := Option.bind_eq_some_iff.mp htasking
  rw [kernelBoot_eq] at hkernel
  have hsound := hloop _ _ m (pagingReserve_sound image info) hkernel
  have halloc := Machine.allocPage_sound hsound
  unfold taskingInit at hmain
  generalize m.allocPage = res at halloc hmain
  obtain ⟨m₂, phys⟩ := res
  dsimp only at hmain
  split_ifs at hmain
  cases hmain
  cases hs
  exact halloc

/-- In a running system a directory that was created, or cloned from the directory of a
process, and mapped any number of pages, is destroyed exactly: afterwards the allocator is
as it was before. -/
theorem destroy_exact (h : SysInv s pds own) (hsound : s.machine.pmm.Sound)
    (hbuilt : Built s.machine pds m pd) :
    DestroyExact m pd (vmmDestroyAddressSpace m pd) ∧
      Pmm.Restored s.machine.pmm (vmmDestroyAddressSpace m pd).pmm := by
  have hready := h.inv.poolReady hsound
  have hcard : pds.card < 0xFFFF := lt_of_le_of_lt h.card_le (by decide)
  have hparents : ∀ parent ∈ pds, ParentReady s.machine parent := by
    intro parent hparent
    apply h.inv.parentReady hparent
    intro i hi j hj f hsite
    exact refcount_lt h.inv hcard hparent hi hj hsite
  exact (hbuilt.spaceOwes hready hparents).destroyExact hready

/-- A new directory with one page, at the start of the program. -/
def onePageSpace (m : Machine) : Option (Machine × Nat) :=
  match vmmCreateAddressSpace m with
  | (_, none) => none
  | (m, some pd) =>
    if m.allocPage.2 = 0#32 then none
    else
      match vmmMapPageInPd m.allocPage.1 pd 0x08048000 m.allocPage.2
        (pagePresent ||| pageUser ||| pageWrite) with
      | .mapped m => some (m, pd)
      | _ => none

theorem onePageSpace_built (hm : PoolReady m) (h : onePageSpace m = some (m', pd)) :
    Built m pds m' pd := by
  unfold onePageSpace at h
  generalize hcreate : vmmCreateAddressSpace m = res at h
  obtain ⟨m₁, dir | dir⟩ := res
  · cases h
  · by_cases hphys : m₁.allocPage.2 = 0#32
    · simp only [hphys, if_true] at h
      cases h
    · simp only [hphys, if_false] at h
      generalize hmap : vmmMapPageInPd m₁.allocPage.1 dir 0x08048000 m₁.allocPage.2
        (pagePresent ||| pageUser ||| pageWrite) = out at h
      cases out with
      | failed => cases h
      | halted => cases h
      | mapped m₃ =>
        cases h
        refine .mapped (.create hcreate) ⟨by decide, ?_, by decide, by decide⟩ rfl hphys hmap
        apply siteEntry_eq_none
        intro hpres
        rw [(SpaceOwes.create hm hcreate).2.2 _ (by decide), isPresent_zero] at hpres
        cases hpres

/-- The small machine with such a directory. -/
theorem destroy_exact_small : ∃ s₀ m pd,
    System.boot smallImage smallInfo (fun _ _ => 0#32) = some s₀ ∧
      isPresent (m.pteAt pd 32 72) = true ∧ DestroyExact m pd (vmmDestroyAddressSpace m pd) ∧
      Pmm.Restored s₀.machine.pmm (vmmDestroyAddressSpace m pd).pmm := by
  have hsmall : (smallBoot.bind fun s => (onePageSpace s.machine).map fun r => (s, r)).any
      (fun r => isPresent (r.2.1.pteAt r.2.2 32 72)) = true := by decide +kernel
  obtain ⟨⟨s₀, m, pd⟩, hs, hpres⟩ := (Option.any_eq_true _ _).mp hsmall
  obtain ⟨s, hboot, hspace⟩ := Option.bind_eq_some_iff.mp hs
  obtain ⟨r, hr, heq⟩ := Option.map_eq_some_iff.mp hspace
  cases heq
  have hboot' := System.boot_small.trans hboot
  obtain ⟨own, hstart⟩ := System.boot_inv hboot'
  have hsound := System.boot_sound hboot'
  have hbuilt : Built s₀.machine ∅ m pd := onePageSpace_built (hstart.sys.inv.poolReady hsound)
    hr
  exact ⟨s₀, m, pd, hboot', hpres, destroy_exact hstart.sys hsound hbuilt⟩

end EnclaveOS
