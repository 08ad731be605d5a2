import EnclaveOS.Memory.PmmOwes

/-!
# SpaceOwes - the references of an address space

Every frame that a directory reaches in its user half, listed once for each entry that
names it: the pages, the tables and the directory itself.  The list is read off the page
tables, and `vmm_destroy_address_space` drops exactly this list.  While a directory is
built, the allocator owes this list, and what the caller still holds.
-/

namespace EnclaveOS

open PageWord

/-- The frame that a present entry names. -/
def entryFrame (m : Machine) (t j : Nat) : Option Nat :=
  if isPresent (m.mem t j) then some (frameOf (m.mem t j)) else none

/-- The pages of a table. -/
def tablePages (m : Machine) (t : Nat) : List Nat :=
  (List.range 1024).filterMap (entryFrame m t)

/-- The references behind one directory entry. -/
def rowFrames (m : Machine) (pd i : Nat) : List Nat :=
  if isPresent (m.mem pd i) then tablePages m (frameOf (m.mem pd i)) ++ [frameOf (m.mem pd i)]
  else []

/-- The references of a directory, in the order in which they are dropped. -/
def spaceFrames (m : Machine) (pd : Nat) : List Nat :=
  (List.range 768).flatMap (rowFrames m pd) ++ [pd]

/-- The user half of a directory has tables of its own, and no 4 MB entries. -/
structure SpaceShape (m : Machine) (pd : Nat) : Prop where
  small : ∀ i < 768, hasFlag (m.mem pd i) pagePs = false
  apart : ∀ i < 768, isPresent (m.mem pd i) = true → frameOf (m.mem pd i) ≠ pd
  inj : ∀ i < 768, ∀ k < 768, isPresent (m.mem pd i) = true → isPresent (m.mem pd k) = true →
    frameOf (m.mem pd i) = frameOf (m.mem pd k) → i = k

variable {m₀ m m' : Machine} {pd i j t : Nat} {w : Word} {held : List Nat}

theorem entryFrame_of_present (h : isPresent (m.mem t j) = true) :
    entryFrame m t j = some (frameOf (m.mem t j)) :=
  if_pos h

theorem entryFrame_of_absent (h : isPresent (m.mem t j) = false) : entryFrame m t j = none :=
  if_neg (by simp [h])

theorem entryFrame_congr (h : m'.mem t j = m.mem t j) : entryFrame m' t j = entryFrame m t j := by
  rw [entryFrame, entryFrame, h]

theorem tablePages_congr (h : m'.mem t = m.mem t) : tablePages m' t = tablePages m t := by
  unfold tablePages
  congr 1
  funext j
  exact entryFrame_congr (congrFun h j)

theorem tablePages_empty (h : ∀ j < 1024, isPresent (m.mem t j) = false) : tablePages m t = [] := by
  apply List.filterMap_eq_nil_iff.mpr
  intro j hj
  exact entryFrame_of_absent (h j (List.mem_range.mp hj))

theorem rowFrames_of_present (h : isPresent (m.mem pd i) = true) :
    rowFrames m pd i = tablePages m (frameOf (m.mem pd i)) ++ [frameOf (m.mem pd i)] :=
  if_pos h

theorem rowFrames_of_absent (h : isPresent (m.mem pd i) = false) : rowFrames m pd i = [] :=
  if_neg (by simp [h])

/-- A row only depends on the directory entry and on its table. -/
theorem rowFrames_congr (hdir : m'.mem pd i = m.mem pd i)
    (htable : isPresent (m.mem pd i) = true →
      m'.mem (frameOf (m.mem pd i)) = m.mem (frameOf (m.mem pd i))) :
    rowFrames m' pd i = rowFrames m pd i := by
  cases hpres : isPresent (m.mem pd i) with
  | false => rw [rowFrames_of_absent (by rw [hdir]; exact hpres), rowFrames_of_absent hpres]
  | true =>
    rw [rowFrames_of_present (by rw [hdir]; exact hpres), rowFrames_of_present hpres, hdir,
      tablePages_congr (htable hpres)]

theorem spaceFrames_congr (hdir : ∀ i < 768, m'.mem pd i = m.mem pd i)
    (htable : ∀ i < 768, isPresent (m.mem pd i) = true →
      m'.mem (frameOf (m.mem pd i)) = m.mem (frameOf (m.mem pd i))) :
    spaceFrames m' pd = spaceFrames m pd := by
  have hrows : ∀ i ∈ List.range 768, rowFrames m' pd i = rowFrames m pd i := by
    intro i hi
    have hi := List.mem_range.mp hi
    exact rowFrames_congr (hdir i hi) (htable i hi)
  rw [spaceFrames, spaceFrames, List.flatMap_congr hrows]

theorem mem_spaceFrames_self : pd ∈ spaceFrames m pd :=
  List.mem_append_right _ (List.mem_singleton_self pd)

theorem mem_spaceFrames_row (hi : i < 768) {f : Nat} (hf : f ∈ rowFrames m pd i) :
    f ∈ spaceFrames m pd :=
  List.mem_append_left _ (List.mem_flatMap.mpr ⟨i, List.mem_range.mpr hi, hf⟩)

theorem mem_spaceFrames_table (hi : i < 768) (hpres : isPresent (m.mem pd i) = true) :
    frameOf (m.mem pd i) ∈ spaceFrames m pd := by
  apply mem_spaceFrames_row hi
  rw [rowFrames_of_present hpres]
  exact List.mem_append_right _ (List.mem_singleton_self _)

/-- An empty directory is its only reference. -/
theorem spaceFrames_empty (h : ∀ i < 768, isPresent (m.mem pd i) = false) :
    spaceFrames m pd = [pd] := by
  have hrows : (List.range 768).flatMap (rowFrames m pd) = [] := by
    rw [List.flatMap_eq_nil_iff]
    intro i hi
    exact rowFrames_of_absent (h i (List.mem_range.mp hi))
  rw [spaceFrames, hrows, List.nil_append]

theorem SpaceShape.congr (h : SpaceShape m pd) (hdir : ∀ i < 768, m'.mem pd i = m.mem pd i) :
    SpaceShape m' pd where
  small i hi := by rw [hdir i hi]; exact h.small i hi
  apart i hi hpres := by
    rw [hdir i hi] at hpres ⊢
    exact h.apart i hi hpres
  inj i hi k hk hpres hpres' heq := by
    rw [hdir i hi] at hpres heq
    rw [hdir k hk] at hpres' heq
    exact h.inj i hi k hk hpres hpres' heq

/-- A table is linked into an empty row. -/
theorem spaceFrames_link (h : SpaceShape m pd) (hi : i < 768)
    (habsent : isPresent (m.mem pd i) = false) (hw : isPresent w = true)
    (hne : frameOf w ≠ pd) :
    (spaceFrames (m.setWord pd i w) pd).Perm
      (tablePages m (frameOf w) ++ [frameOf w] ++ spaceFrames m pd) := by
  unfold spaceFrames
  rw [← List.append_assoc]
  apply List.Perm.append_right
  apply ListGrowth.perm_flatMap List.nodup_range (List.mem_range.mpr hi)
  · intro k hk hki
    apply rowFrames_congr
    · rw [Machine.setWord_mem, if_neg fun hc => hki hc.2]
    · intro hpres
      exact Machine.setWord_mem_of_ne (h.apart k (List.mem_range.mp hk) hpres) i w
  · rw [rowFrames_of_absent habsent, List.append_nil,
      rowFrames_of_present (by rw [Machine.setWord_mem_self]; exact hw), Machine.setWord_mem_self,
      tablePages_congr (Machine.setWord_mem_of_ne hne i w)]

theorem SpaceShape.link (h : SpaceShape m pd) (hsmall : hasFlag w pagePs = false)
    (hne : frameOf w ≠ pd)
    (hnew : ∀ k < 768, isPresent (m.mem pd k) = true → frameOf (m.mem pd k) ≠ frameOf w) :
    SpaceShape (m.setWord pd i w) pd := by
  have hself : (m.setWord pd i w).mem pd i = w := Machine.setWord_mem_self _ _ _
  have hother : ∀ k, k ≠ i → (m.setWord pd i w).mem pd k = m.mem pd k := by
    intro k hk
    rw [Machine.setWord_mem, if_neg fun hc => hk hc.2]
  constructor
  · intro k hk
    by_cases hki : k = i
    · rw [hki, hself]
      exact hsmall
    · rw [hother k hki]
      exact h.small k hk
  · intro k hk hpres
    by_cases hki : k = i
    · rw [hki, hself]
      exact hne
    · rw [hother k hki] at hpres ⊢
      exact h.apart k hk hpres
  · intro a ha b hb hpa hpb heq
    by_cases hai : a = i
    · by_cases hbi : b = i
      · rw [hai, hbi]
      · rw [hother b hbi] at hpb heq
        rw [hai, hself] at heq
        exact absurd heq.symm (hnew b hb hpb)
    · rw [hother a hai] at hpa heq
      by_cases hbi : b = i
      · rw [hbi, hself] at heq
        exact absurd heq (hnew a ha hpa)
      · rw [hother b hbi] at hpb heq
        exact h.inj a ha b hb hpa hpb heq

/-- A page is entered into a table. -/
theorem spaceFrames_enter (h : SpaceShape m pd) (hi : i < 768) (hj : j < 1024)
    (hpde : isPresent (m.mem pd i) = true) (habsent : isPresent (m.pteAt pd i j) = false)
    (hw : isPresent w = true) :
    (spaceFrames (m.setWord (frameOf (m.mem pd i)) j w) pd).Perm
      (frameOf w :: spaceFrames m pd) := by
  have hdir : (m.setWord (frameOf (m.mem pd i)) j w).mem pd = m.mem pd :=
    Machine.setWord_mem_of_ne (Ne.symm (h.apart i hi hpde)) j w
  have hpages : (tablePages (m.setWord (frameOf (m.mem pd i)) j w) (frameOf (m.mem pd i))).Perm
      (frameOf w :: tablePages m (frameOf (m.mem pd i))) := by
    unfold tablePages
    apply ListGrowth.perm_filterMap List.nodup_range (List.mem_range.mpr hj)
    · intro k _ hkj
      apply entryFrame_congr
      rw [Machine.setWord_mem, if_neg fun hc => hkj hc.2]
    · exact entryFrame_of_absent habsent
    · rw [entryFrame_of_present (by rw [Machine.setWord_mem_self]; exact hw),
        Machine.setWord_mem_self]
  have hrow : (rowFrames (m.setWord (frameOf (m.mem pd i)) j w) pd i).Perm
      ([frameOf w] ++ rowFrames m pd i) := by
    rw [rowFrames_of_present (by rw [hdir]; exact hpde), rowFrames_of_present hpde, hdir,
      List.singleton_append, ← List.cons_append]
    exact hpages.append_right _
  have hrest : ∀ k ∈ List.range 768, k ≠ i →
      rowFrames (m.setWord (frameOf (m.mem pd i)) j w) pd k = rowFrames m pd k := by
    intro k hk hki
    apply rowFrames_congr (congrFun hdir k)
    intro hpres
    apply Machine.setWord_mem_of_ne
    exact fun heq => hki (h.inj k (List.mem_range.mp hk) i hi hpres hpde heq)
  have hall := ListGrowth.perm_flatMap List.nodup_range (List.mem_range.mpr hi) hrest hrow
  rw [List.singleton_append] at hall
  rw [spaceFrames, spaceFrames, ← List.cons_append]
  exact hall.append_right [pd]

/-- The allocator owes the references of a directory, and the frames `held` of the
caller.  The directory and its tables were free at the start. -/
structure SpaceOwes (m₀ m : Machine) (pd : Nat) (held : List Nat) : Prop where
  shape : SpaceShape m pd
  owes : m₀.pmm.Owes m.pmm (held ++ spaceFrames m pd)
  boot : m.bootPageDirectory = m₀.bootPageDirectory
  dirFresh : m₀.pmm.bitmap pd = false
  tableFresh : ∀ i < 768, isPresent (m.mem pd i) = true →
    m₀.pmm.bitmap (frameOf (m.mem pd i)) = false

/-- The allocator is sound, and the kernel's own directory is not in the pool. -/
structure PoolReady (m : Machine) : Prop where
  sound : m.pmm.Sound
  bootUsed : m.bootPageDirectory < m.pmm.maxPage → m.pmm.bitmap m.bootPageDirectory = true

namespace SpaceOwes

theorem dir_used (h : SpaceOwes m₀ m pd held) : m.pmm.bitmap pd = true :=
  h.owes.bit_set (List.mem_append_right _ mem_spaceFrames_self)

theorem table_used (h : SpaceOwes m₀ m pd held) (hi : i < 768)
    (hpres : isPresent (m.mem pd i) = true) : m.pmm.bitmap (frameOf (m.mem pd i)) = true :=
  h.owes.bit_set (List.mem_append_right _ (mem_spaceFrames_table hi hpres))

/-- A frame comes from the pool into the hands of the caller. -/
theorem take (h : SpaceOwes m₀ m pd held) (hm₀ : PoolReady m₀) {f : Nat}
    (hf : m.pmm.bitmap f = false) (hlimit : f < m.pmm.maxPage) :
    SpaceOwes m₀ (m.withPmm (m.pmm.take f)) pd (f :: held) where
  shape := h.shape.congr fun _ _ => rfl
  owes := h.owes.take hm₀.sound hf hlimit
  boot := h.boot
  dirFresh := h.dirFresh
  tableFresh := h.tableFresh

/-- The caller gives a frame back. -/
theorem giveBack {f : Nat} (h : SpaceOwes m₀ m pd (f :: held)) (hm₀ : PoolReady m₀)
    (hone : m.pmm.refcounts f = 1) : SpaceOwes m₀ (m.freePage (frameAddr f)) pd held where
  shape := h.shape.congr fun _ _ => rfl
  owes := h.owes.freePage hm₀.sound hone
  boot := h.boot
  dirFresh := h.dirFresh
  tableFresh := h.tableFresh

/-- Writes to frames that are neither the directory nor one of its tables. -/
theorem congrMem (h : SpaceOwes m₀ m pd held) (hpmm : m'.pmm = m.pmm)
    (hboot : m'.bootPageDirectory = m.bootPageDirectory) (hdir : m'.mem pd = m.mem pd)
    (htable : ∀ i < 768, isPresent (m.mem pd i) = true →
      m'.mem (frameOf (m.mem pd i)) = m.mem (frameOf (m.mem pd i))) :
    SpaceOwes m₀ m' pd held where
  shape := h.shape.congr fun i _ => congrFun hdir i
  owes := by
    rw [hpmm, spaceFrames_congr (fun i _ => congrFun hdir i) htable]
    exact h.owes
  boot := hboot.trans h.boot
  dirFresh := h.dirFresh
  tableFresh i hi hpres := by
    rw [hdir] at hpres ⊢
    exact h.tableFresh i hi hpres

/-- A table of the caller, with the pages entered in it, is linked. -/
theorem link (h : SpaceOwes m₀ m pd (tablePages m t ++ [t] ++ held)) (hi : i < 768)
    (habsent : isPresent (m.mem pd i) = false) (ht : m₀.pmm.bitmap t = false) (hne : t ≠ pd)
    (hnew : ∀ k < 768, isPresent (m.mem pd k) = true → frameOf (m.mem pd k) ≠ t)
    (hw : isPresent w = true) (hframe : frameOf w = t) (hsmall : hasFlag w pagePs = false) :
    SpaceOwes m₀ (m.setWord pd i w) pd held := by
  subst hframe
  refine ⟨h.shape.link hsmall hne hnew, ?_, h.boot, h.dirFresh, ?_⟩
  · apply h.owes.perm
    rw [List.append_assoc]
    have hlinked := (spaceFrames_link h.shape hi habsent hw hne).symm.append_left held
    refine List.Perm.trans ?_ hlinked
    rw [← List.append_assoc, ← List.append_assoc]
    exact List.perm_append_comm.append_right _
  · intro k hk hpres
    by_cases hki : k = i
    · rw [hki, Machine.setWord_mem_self]
      exact ht
    · have hother : (m.setWord pd i w).mem pd k = m.mem pd k := by
        rw [Machine.setWord_mem, if_neg fun hc => hki hc.2]
      rw [hother] at hpres ⊢
      exact h.tableFresh k hk hpres

/-- A frame of the caller is entered into a table. -/
theorem enter (h : SpaceOwes m₀ m pd (frameOf w :: held)) (hi : i < 768) (hj : j < 1024)
    (hpde : isPresent (m.mem pd i) = true) (habsent : isPresent (m.pteAt pd i j) = false)
    (hw : isPresent w = true) :
    SpaceOwes m₀ (m.setWord (frameOf (m.mem pd i)) j w) pd held := by
  have hdir : (m.setWord (frameOf (m.mem pd i)) j w).mem pd = m.mem pd :=
    Machine.setWord_mem_of_ne (Ne.symm (h.shape.apart i hi hpde)) j w
  refine ⟨h.shape.congr fun k _ => congrFun hdir k, ?_, h.boot, h.dirFresh, ?_⟩
  · apply h.owes.perm
    rw [List.cons_append]
    exact List.perm_middle.symm.trans
      ((spaceFrames_enter h.shape hi hj hpde habsent hw).symm.append_left held)
  · intro k hk hpres
    rw [hdir] at hpres ⊢
    exact h.tableFresh k hk hpres

/-- The table of a row, made now if there was none. -/
theorem ensureTable (h : SpaceOwes m₀ m pd held) (hm₀ : PoolReady m₀) (hi : i < 768) :
    SpaceOwes m₀ (ensureTable m pd i).1 pd held ∧
      ((ensureTable m pd i).2 = true → isPresent ((ensureTable m pd i).1.mem pd i) = true ∧
        (siteEntry m (pd, i, j) = none → isPresent ((ensureTable m pd i).1.pteAt pd i j) = false)) ∧
      ((ensureTable m pd i).2 = false → (ensureTable m pd i).1 = m) := by
  rcases ensureTable_cases m pd i (h.owes.sound hm₀.sound).limit (h.owes.sound hm₀.sound).zeroBit
    with ⟨hpres, heq⟩ | ⟨hpres, heq⟩ | ⟨t, hpres, hfree, hlimit, heq⟩
  · rw [heq]
    refine ⟨h, fun _ => ⟨hpres, fun hnone => ?_⟩, fun _ => rfl⟩
    rw [← Bool.not_eq_true]
    intro hpte
    rw [siteEntry_eq_some.mpr ⟨hpres, hpte, rfl⟩] at hnone
    cases hnone
  · rw [heq]
    exact ⟨h, fun hok => absurd hok Bool.false_ne_true, fun _ => rfl⟩
  · rw [heq]
    have hmax : t < 1048576 := lt_of_lt_of_le hlimit (h.owes.sound hm₀.sound).limit
    have hpd : pd ≠ t := by
      rintro rfl
      simp [h.dir_used] at hfree
    have hnew : ∀ k < 768, isPresent (m.mem pd k) = true → frameOf (m.mem pd k) ≠ t := by
      rintro k hk hk' rfl
      simp [h.table_used hk hk'] at hfree
    have hclear : SpaceOwes m₀ ((m.withPmm (m.pmm.take t)).clearFrame t) pd (t :: held) :=
      (h.take hm₀ hfree hlimit).congrMem rfl rfl (Machine.clearFrame_mem_of_ne hpd)
        fun k hk hk' => Machine.clearFrame_mem_of_ne (hnew k hk hk')
    have hmem : ((m.withPmm (m.pmm.take t)).clearFrame t).mem pd = m.mem pd :=
      Machine.clearFrame_mem_of_ne hpd
    have hzero : ∀ k, isPresent (((m.withPmm (m.pmm.take t)).clearFrame t).mem t k) = false := by
      intro k
      rw [Machine.clearFrame_mem, if_pos rfl]
      exact isPresent_zero
    have hpages : tablePages ((m.withPmm (m.pmm.take t)).clearFrame t) t = [] :=
      tablePages_empty fun k _ => hzero k
    have hframe := frameOf_tableEntry hmax
    refine ⟨?_, ?_, fun hok => absurd hok.symm Bool.false_ne_true⟩
    · refine SpaceOwes.link ?_ hi (by rw [hmem]; exact hpres) (h.owes.fresh hfree).1 (Ne.symm hpd)
        (by rwa [hmem]) (isPresent_tableEntry _) hframe (pagePs_tableEntry hmax)
      rw [hpages]
      exact hclear
    · intro _
      refine ⟨?_, fun _ => ?_⟩
      · rw [Machine.setWord_mem_self]
        exact isPresent_tableEntry _
      · rw [Machine.pteAt, Machine.setWord_mem_self, hframe,
          Machine.setWord_mem_of_ne (Ne.symm hpd)]
        exact hzero j

/-- `vmm_map_page_in_pd` with a frame of the caller, on a page that is not mapped: the
frame is entered, or stays with the caller. -/
theorem map (hm₀ : PoolReady m₀) {f virt : Nat} {flags : Word}
    (h : SpaceOwes m₀ m pd (f :: held)) (hvirt : virt < kernelSpaceStart)
    (hnone : siteEntry m (pd, dirIndex virt, tableIndex virt) = none) (hlow : IsLow flags)
    (hpresent : hasFlag flags pagePresent = true) :
    (∃ m', vmmMapPageInPd m pd virt (frameAddr f) flags = .mapped m' ∧ SpaceOwes m₀ m' pd held) ∨
    vmmMapPageInPd m pd virt (frameAddr f) flags = .failed m := by
  have hi := (dirIndex_lt_768_iff virt).mpr hvirt
  have hmax : f < 1048576 := lt_of_lt_of_le (h.owes.below f List.mem_cons_self) hm₀.sound.limit
  have hframe : frameOf (frameAddr f ||| flags) = f := by
    rw [frameOf_or hlow, frameOf_frameAddr hmax]
  have hword : isPresent (frameAddr f ||| flags) = true := by
    simp only [isPresent, hasFlag_or, hpresent, Bool.or_true]
  obtain ⟨hready, hok, hfail⟩ := h.ensureTable (j := tableIndex virt) hm₀ hi
  unfold EnclaveOS.vmmMapPageInPd
  rw [if_neg (by rw [h.shape.small _ hi]; exact Bool.false_ne_true)]
  generalize EnclaveOS.ensureTable m pd (dirIndex virt) = res at hready hok hfail
  obtain ⟨m₁, ok⟩ := res
  cases ok with
  | false => exact Or.inr (congrArg MapResult.failed (hfail rfl))
  | true =>
    obtain ⟨hpde, habsent⟩ := hok rfl
    have hreplace : replaceEntry m₁ (frameOf (m₁.mem pd (dirIndex virt))) (tableIndex virt)
        (frameAddr f ||| flags) =
        m₁.setWord (frameOf (m₁.mem pd (dirIndex virt))) (tableIndex virt)
          (frameAddr f ||| flags) := by
      have hpte : isPresent (m₁.mem (frameOf (m₁.mem pd (dirIndex virt))) (tableIndex virt)) =
        false := habsent hnone
      unfold replaceEntry
      rw [if_neg (by rw [hpte]; exact Bool.false_ne_true)]
    refine Or.inl ⟨_, rfl, ?_⟩
    rw [hreplace]
    apply SpaceOwes.enter _ hi (tableIndex_lt virt) hpde (habsent hnone) hword
    rw [hframe]
    exact hready

/-- Without a page `vmm_create_address_space` changes nothing. -/
theorem createFailed (hm : PoolReady m) (h : vmmCreateAddressSpace m = (m', none)) : m' = m := by
  unfold vmmCreateAddressSpace at h
  rcases m.allocPage_cases with halloc | ⟨f, hfree, hlimit, halloc⟩
  · rw [halloc] at h
    exact (Prod.mk.inj h).1.symm
  · have hnz : frameAddr f ≠ 0#32 := by
      rw [ne_eq, frameAddr_eq_zero_iff (lt_of_lt_of_le hlimit hm.sound.limit)]
      rintro rfl
      simp [hm.sound.zeroBit] at hfree
    rw [halloc] at h
    dsimp only at h
    rw [if_neg hnz] at h
    cases h

/-- `vmm_create_address_space`. -/
theorem create (hm : PoolReady m) (h : vmmCreateAddressSpace m = (m', some pd)) :
    SpaceOwes m m' pd [] ∧ (∀ g, g ≠ pd → m'.mem g = m.mem g) ∧ ∀ i < 768, m'.mem pd i = 0#32 := by
  unfold vmmCreateAddressSpace at h
  rcases m.allocPage_cases with halloc | ⟨f, hfree, hlimit, halloc⟩
  · rw [halloc] at h
    cases h
  · rw [halloc] at h
    dsimp only at h
    have hmax : f < 1048576 := lt_of_lt_of_le hlimit hm.sound.limit
    by_cases hzero : frameAddr f = 0#32
    · rw [if_pos hzero] at h
      cases h
    rw [if_neg hzero] at h
    rw [frameOf_frameAddr hmax] at h
    obtain ⟨rfl, hpd⟩ := Prod.mk.inj h
    obtain rfl := Option.some.inj hpd
    set m' := ((m.withPmm (m.pmm.take f)).clearFrame f).copyKernelHalf f with hm'
    have hempty : ∀ i < 768, m'.mem f i = 0#32 := by
      intro i hi
      rw [hm', Machine.copyKernelHalf_mem_self, if_neg (by omega), Machine.clearFrame_mem,
        if_pos rfl]
    have habsent : ∀ i < 768, isPresent (m'.mem f i) = false := by
      intro i hi
      rw [hempty i hi]
      exact isPresent_zero
    refine ⟨⟨⟨?_, ?_, ?_⟩, ?_, rfl, hfree, ?_⟩, ?_, hempty⟩
    · intro i hi
      rw [hempty i hi]
      exact hasFlag_zero _
    · intro i hi hpres
      simp [habsent i hi] at hpres
    · intro i hi k _ hpres
      simp [habsent i hi] at hpres
    · rw [List.nil_append, spaceFrames_empty habsent]
      exact (Pmm.Owes.refl m.pmm).take hm.sound hfree hlimit
    · intro i hi hpres
      simp [habsent i hi] at hpres
    · intro g hg
      rw [hm', Machine.copyKernelHalf_mem_of_ne hg, Machine.clearFrame_mem_of_ne hg]
      rfl

end SpaceOwes

/-- `pmm_dec_ref` on a list of frames. -/
def dropFrames (l : List Nat) (p : Pmm) : Pmm :=
  l.foldl (fun p f => pmmDecRef p (frameAddr f)) p

@[simp]
theorem dropFrames_append (l l' : List Nat) (p : Pmm) :
    dropFrames (l ++ l') p = dropFrames l' (dropFrames l p) :=
  List.foldl_append

/-- The loop over a table drops its pages. -/
theorem foldl_destroyEntry_pages (t : Nat) (l : List Nat) (m : Machine) :
    l.foldl (destroyEntry t) m = m.withPmm (dropFrames (l.filterMap (entryFrame m t)) m.pmm) := by
  induction l generalizing m with
  | nil => rfl
  | cons j l ih =>
    rw [List.foldl_cons]
    cases hpres : isPresent (m.mem t j) with
    | false =>
      have hstep : destroyEntry t m j = m := if_neg (by simp [hpres])
      rw [hstep, ih, List.filterMap_cons_none (entryFrame_of_absent hpres)]
    | true =>
      have hstep : destroyEntry t m j = m.decRef (physOf (m.mem t j)) := if_pos hpres
      rw [hstep, ih, List.filterMap_cons_some (entryFrame_of_present hpres), physOf_eq_frameAddr]
      rfl

/-- A row of the loop drops its references and clears its entry. -/
theorem destroyDirEntry_row (h : SpaceShape m pd) (hi : i < 768) :
    ∃ w, destroyDirEntry pd m i =
        (m.withPmm (dropFrames (rowFrames m pd i) m.pmm)).setWord pd i w ∧
      (isPresent (m.mem pd i) = false → w = m.mem pd i) ∧
      (isPresent (m.mem pd i) = true → w = 0#32) := by
  rw [destroyDirEntry_eq m pd i (h.small i hi)]
  cases hpres : isPresent (m.mem pd i) with
  | false =>
    refine ⟨m.mem pd i, ?_, fun _ => rfl, fun h => absurd h Bool.false_ne_true⟩
    have hself : (m.withPmm m.pmm).setWord pd i (m.mem pd i) = m := by
      simp [Machine.setWord, Machine.withPmm]
    rw [rowFrames_of_absent hpres, if_neg Bool.false_ne_true]
    exact hself.symm
  | true =>
    refine ⟨0#32, ?_, fun h => absurd h.symm Bool.false_ne_true, fun _ => rfl⟩
    have hpages : (List.range 1024).foldl (destroyEntry (frameOf (m.mem pd i))) m =
        m.withPmm (dropFrames (tablePages m (frameOf (m.mem pd i))) m.pmm) :=
      foldl_destroyEntry_pages _ _ m
    rw [if_pos rfl, hpages, rowFrames_of_present hpres, dropFrames_append, physOf_eq_frameAddr]
    generalize tablePages m (frameOf (m.mem pd i)) = pages
    rfl

/-- The loop over the directory entries drops the references of all rows. -/
theorem foldl_destroyDirEntry_rows (h : SpaceShape m pd) {l : List Nat} (hl : ∀ i ∈ l, i < 768)
    (hnodup : l.Nodup) :
    (l.foldl (destroyDirEntry pd) m).pmm = dropFrames (l.flatMap (rowFrames m pd)) m.pmm ∧
      (l.foldl (destroyDirEntry pd) m).bootPageDirectory = m.bootPageDirectory ∧
      ∀ g, g ≠ pd → (l.foldl (destroyDirEntry pd) m).mem g = m.mem g := by
  induction l generalizing m with
  | nil => exact ⟨rfl, rfl, fun _ _ => rfl⟩
  | cons i l ih =>
    obtain ⟨hil, hnodup⟩ := List.nodup_cons.mp hnodup
    have hi := hl i List.mem_cons_self
    obtain ⟨w, hstep, habsent, hpresent⟩ := destroyDirEntry_row h hi
    set m₁ := (m.withPmm (dropFrames (rowFrames m pd i) m.pmm)).setWord pd i w with hm₁
    have hother : ∀ k, k ≠ i → m₁.mem pd k = m.mem pd k := by
      intro k hk
      rw [hm₁, Machine.setWord_mem, if_neg fun hc => hk hc.2]
      rfl
    have hrest : ∀ g, g ≠ pd → m₁.mem g = m.mem g := fun g hg => Machine.setWord_mem_of_ne hg i w
    have hself : m₁.mem pd i = w := Machine.setWord_mem_self _ _ _
    have hkept : ∀ k, isPresent (m₁.mem pd k) = true → m₁.mem pd k = m.mem pd k := by
      intro k hk
      by_cases hki : k = i
      · rw [hki, hself] at hk ⊢
        cases hpres : isPresent (m.mem pd i) with
        | false => exact habsent hpres
        | true => simp [hpresent hpres] at hk
      · exact hother k hki
    have hshape : SpaceShape m₁ pd := by
      constructor
      · intro k hk
        by_cases hki : k = i
        · rw [hki, hself]
          cases hpres : isPresent (m.mem pd i) with
          | false => rw [habsent hpres]; exact h.small i hi
          | true => rw [hpresent hpres]; exact hasFlag_zero _
        · rw [hother k hki]
          exact h.small k hk
      · intro k hk hpres
        have heq := hkept k hpres
        rw [heq] at hpres ⊢
        exact h.apart k hk hpres
      · intro a ha b hb hpa hpb heq
        have hwa := hkept a hpa
        have hwb := hkept b hpb
        rw [hwa] at hpa heq
        rw [hwb] at hpb heq
        exact h.inj a ha b hb hpa hpb heq
    have hrows : ∀ k ∈ l, rowFrames m₁ pd k = rowFrames m pd k := by
      intro k hk
      have hki : k ≠ i := by
        rintro rfl
        exact hil hk
      apply rowFrames_congr (hother k hki)
      intro hpres
      exact hrest _ (h.apart k (hl k (List.mem_cons_of_mem _ hk)) hpres)
    obtain ⟨hpmm, hboot, hmem⟩ := ih hshape (fun k hk => hl k (List.mem_cons_of_mem _ hk)) hnodup
    rw [List.foldl_cons, hstep]
    refine ⟨?_, hboot, fun g hg => (hmem g hg).trans (hrest g hg)⟩
    rw [hpmm, List.flatMap_cons, dropFrames_append, List.flatMap_congr hrows]
    rfl

/-- `vmm_destroy_address_space` drops the references of the directory. -/
theorem SpaceOwes.destroy (h : SpaceOwes m₀ m pd []) (hm₀ : PoolReady m₀) :
    m₀.pmm.Owes (vmmDestroyAddressSpace m pd).pmm [] ∧
      ∀ g, g ≠ pd → (vmmDestroyAddressSpace m pd).mem g = m.mem g := by
  have hboot : pd ≠ m.bootPageDirectory := by
    intro heq
    have hlimit := h.owes.below pd (List.mem_append_right _ mem_spaceFrames_self)
    have hused := hm₀.bootUsed
    rw [← h.boot, ← heq, h.dirFresh] at hused
    exact Bool.false_ne_true (hused hlimit)
  obtain ⟨hpmm, -, hmem⟩ := foldl_destroyDirEntry_rows h.shape (l := List.range 768)
    (fun i hi => List.mem_range.mp hi) List.nodup_range
  unfold vmmDestroyAddressSpace
  rw [if_neg hboot]
  have hfree : ∀ g, g ≠ pd → (((List.range 768).foldl (destroyDirEntry pd) m).freePage
      (frameAddr pd)).mem g = m.mem g := by
    intro g hg
    rw [Machine.freePage_mem]
    exact hmem g hg
  refine ⟨?_, hfree⟩
  have howes : m₀.pmm.Owes m.pmm ((List.range 768).flatMap (rowFrames m pd) ++ [pd]) := by
    have hall := h.owes
    rwa [List.nil_append, spaceFrames] at hall
  have hrows : m₀.pmm.Owes (dropFrames ((List.range 768).flatMap (rowFrames m pd)) m.pmm)
    [pd] := Pmm.Owes.decRefAll hm₀.sound howes
  have hone : (dropFrames ((List.range 768).flatMap (rowFrames m pd)) m.pmm).refcounts pd =
      1 := by
    rw [hrows.count_fresh hm₀.sound h.dirFresh, List.count_singleton_self]
  rw [Machine.freePage, Machine.withPmm_pmm, hpmm]
  exact hrows.freePage hm₀.sound hone

end EnclaveOS
