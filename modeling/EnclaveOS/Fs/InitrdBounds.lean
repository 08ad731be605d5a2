import EnclaveOS.Foundation.PartialRun
import EnclaveOS.Fs.Initrd

/-!
# InitrdBounds - what mounting reads of the boot module

The search for the first header and the header loop of `initrd_init` on a module with any
bytes.  A size is read from the header and moves the loop by any multiple of 512, modulo 2^32;
the only guard compares the place of the next header with the end of the module.
-/

namespace EnclaveOS

namespace BootModule

variable (m : BootModule)

/-- The place of an address in the module. -/
def place (a : Nat) : Nat := wrap32 (a + 4294967296 - physToVirt m.tarStart)

/-- The field of a header, or its contents, lie in the module. -/
def Inside (h offset count : Nat) : Prop := m.place h + offset + count ≤ m.tarEnd - m.tarStart

/-- The condition of the loop that searches the first header. -/
def Searches (h : Nat) : Prop :=
  (h < physToVirt (m.tarStart + 8192) ∧ h < physToVirt m.tarEnd) ∧ m.magicAt h = false

/-- The headers whose magic is compared in the search and behind it. -/
def searched : Nat → Nat → List Nat
  | 0, h => [h]
  | fuel + 1, h =>
    if h < physToVirt (m.tarStart + 8192) ∧ h < physToVirt m.tarEnd then
      if m.magicAt h then [h] else h :: searched fuel (wrap32 (h + 512))
    else [h]

/-- The first header of the archive. -/
def firstHeader : Nat := m.searchHeader 17 (physToVirt m.tarStart)

/-- The header loop takes an entry from this header. -/
def HasEntry (h : Nat) : Prop := h < physToVirt m.tarEnd ∧ m.mem h ≠ 0 ∧ m.magicAt h

/-- The place of the next header, or the end of the loop. -/
def nextHeader (h : Nat) : Option Nat :=
  if physToVirt m.tarEnd ≤ h then none
  else if m.mem h = 0 then
    if m.mem (wrap32 (h + 257)) = 0 then none else some (wrap32 (h + 512))
  else if !m.magicAt h then none
  else some (wrap32 (h + 512 + wrap32 ((m.entryAt h).size + 511) / 512 * 512))

/-- `initrd_init` does not refuse the bounds of the module. -/
def Accepted : Prop := m.tarStart ≠ 0 ∧ m.tarStart < m.tarEnd

/-- The header loop comes to a header. -/
def Comes (h : Nat) : Prop :=
  m.Accepted ∧ m.magicAt m.firstHeader ∧ ∃ n, partialRun m.nextHeader m.firstHeader n = some h

/-- The fields that the header loop reads: the name and the magic, and those of an entry. -/
def headerFields (h : Nat) : List (Nat × Nat) :=
  [(0, 100), (257, 6)] ++
    if m.mem h ≠ 0 ∧ m.magicAt h then [(345, 155), (124, 12), (156, 1)] else []

/-- Mounting ends, and reads the headers and registers the files inside of the module only. -/
structure Safe : Prop where
  searchEnds : ¬m.Searches m.firstHeader
  searchInside : m.Accepted → ∀ h ∈ m.searched 17 (physToVirt m.tarStart), m.Inside h 257 6
  loopEnds : ∃ fuel es, m.readArchive fuel = some es
  fieldsInside : ∀ h, m.Comes h → h < physToVirt m.tarEnd →
    ∀ f ∈ m.headerFields h, m.Inside h f.1 f.2
  filesInside : ∀ h, m.Comes h → m.HasEntry h → (m.entryAt h).IsFile →
    m.Inside h 512 (m.entryAt h).size

/-- The search stops at a header whose magic lies in the module; from there, the loop comes to no
header twice, and each one has as much room as is used of it. -/
structure Sound : Prop where
  first : m.Accepted → m.place m.firstHeader + 263 ≤ m.tarEnd - m.tarStart
  fresh : m.Accepted → m.magicAt m.firstHeader → ∀ i j h, i < j →
    partialRun m.nextHeader m.firstHeader i = some h →
    partialRun m.nextHeader m.firstHeader j ≠ some h
  room : ∀ h, m.Comes h → h < physToVirt m.tarEnd → m.place h + 263 ≤ m.tarEnd - m.tarStart
  entries : ∀ h, m.Comes h → m.HasEntry h → m.place h + 500 ≤ m.tarEnd - m.tarStart
  files : ∀ h, m.Comes h → m.HasEntry h → (m.entryAt h).IsFile →
    m.place h + 512 + (m.entryAt h).size ≤ m.tarEnd - m.tarStart

end BootModule

section Bounds

variable {m : BootModule}

theorem wrap32_lt (n : Nat) : wrap32 n < 4294967296 := Nat.mod_lt n (by decide)

/-- The limit of the search is 8 KB behind its start, or the addresses wrap around between. -/
theorem searchLimit_eq (m : BootModule) :
    BootModule.physToVirt (m.tarStart + 8192) < BootModule.physToVirt m.tarStart ∨
      BootModule.physToVirt (m.tarStart + 8192) = BootModule.physToVirt m.tarStart + 8192 := by
  unfold BootModule.physToVirt wrap32 kernelSpaceStart
  omega

/-- A block of the module. -/
def BootModule.block (m : BootModule) (k : Nat) : Nat :=
  BootModule.physToVirt m.tarStart + 512 * k

theorem place_block {k : Nat} (hfit : m.block k < 4294967296) : m.place (m.block k) = 512 * k := by
  unfold BootModule.block at hfit
  unfold BootModule.place BootModule.block wrap32
  omega

/-- Where the search goes on, the next block is behind the limit at most. -/
theorem block_succ {j : Nat} (h : m.block j < BootModule.physToVirt (m.tarStart + 8192)) :
    j < 16 ∧ m.block (j + 1) < 4294967296 ∧ wrap32 (m.block j + 512) = m.block (j + 1) := by
  have hlimit := searchLimit_eq m
  have hbound : BootModule.physToVirt (m.tarStart + 8192) < 4294967296 := wrap32_lt _
  unfold BootModule.block at h ⊢
  unfold wrap32
  omega

/-- The search from a block: it stops at one behind, and compares the magics on its way. -/
theorem search_spec (m : BootModule) (fuel : Nat) {j : Nat} (hfit : m.block j < 4294967296) :
    ∃ k, j ≤ k ∧ m.block k < 4294967296 ∧ m.searchHeader fuel (m.block j) = m.block k ∧
      m.block k ∈ m.searched fuel (m.block j) ∧
      (∀ h ∈ m.searched fuel (m.block j), ∃ i ≤ k, h = m.block i) ∧
      (16 ≤ fuel + j → ¬m.Searches (m.block k)) := by
  have hstop : ∀ j, ∀ h ∈ [m.block j], ∃ i ≤ j, h = m.block i := fun j h hh =>
    ⟨j, le_rfl, List.mem_singleton.mp hh⟩
  induction fuel generalizing j with
  | zero =>
    refine ⟨j, le_rfl, hfit, rfl, List.mem_singleton_self _, hstop j, fun hj hsearch => ?_⟩
    have hlt := (block_succ hsearch.1.1).1
    omega
  | succ fuel ih =>
    unfold BootModule.searchHeader BootModule.searched
    by_cases hgo : m.block j < BootModule.physToVirt (m.tarStart + 8192) ∧
        m.block j < BootModule.physToVirt m.tarEnd
    · rw [if_pos hgo, if_pos hgo]
      by_cases hmagic : m.magicAt (m.block j)
      · rw [if_pos hmagic, if_pos hmagic]
        refine ⟨j, le_rfl, hfit, rfl, List.mem_singleton_self _, hstop j, fun _ hsearch => ?_⟩
        exact absurd hmagic (by simp [hsearch.2])
      · obtain ⟨-, hfit', hnext⟩ := block_succ hgo.1
        obtain ⟨k, hle, hk, hresult, hmem, hall, hends⟩ := ih hfit'
        rw [if_neg hmagic, if_neg hmagic, hnext]
        refine ⟨k, Nat.le_of_succ_le hle, hk, hresult, List.mem_cons_of_mem _ hmem,
          fun h hh => ?_, fun hj => hends (by rwa [← Nat.succ_add_eq_add_succ])⟩
        rcases List.mem_cons.mp hh with rfl | hh
        · exact ⟨j, Nat.le_of_succ_le hle, rfl⟩
        · exact hall h hh
    · rw [if_neg hgo, if_neg hgo]
      exact ⟨j, le_rfl, hfit, rfl, List.mem_singleton_self _, hstop j,
        fun _ hsearch => hgo hsearch.1⟩

theorem search_first (m : BootModule) :
    ∃ k, m.block k < 4294967296 ∧ m.firstHeader = m.block k ∧
      m.block k ∈ m.searched 17 (BootModule.physToVirt m.tarStart) ∧
      (∀ h ∈ m.searched 17 (BootModule.physToVirt m.tarStart), ∃ i ≤ k, h = m.block i) ∧
      ¬m.Searches (m.block k) := by
  have hzero : m.block 0 = BootModule.physToVirt m.tarStart := Nat.add_zero _
  obtain ⟨k, -, hk, hresult, hmem, hall, hends⟩ :=
    search_spec m 17 (show m.block 0 < 4294967296 from hzero ▸ wrap32_lt _)
  rw [hzero] at hresult hmem hall
  exact ⟨k, hk, hresult, hmem, hall, hends (by decide)⟩

theorem searchHeader_ends (m : BootModule) : ¬m.Searches m.firstHeader := by
  obtain ⟨k, -, hfirst, -, -, hends⟩ := search_first m
  rwa [hfirst]

/-- The search reads inside of the module when the last magic that it compares lies in it. -/
theorem search_inside_iff (m : BootModule) :
    (∀ h ∈ m.searched 17 (BootModule.physToVirt m.tarStart), m.Inside h 257 6) ↔
      m.place m.firstHeader + 263 ≤ m.tarEnd - m.tarStart := by
  obtain ⟨k, hk, hfirst, hmem, hall, -⟩ := search_first m
  rw [hfirst]
  constructor
  · intro h
    exact h _ hmem
  · intro h addr haddr
    obtain ⟨i, hi, rfl⟩ := hall addr haddr
    have hi' : m.block i < 4294967296 := by
      unfold BootModule.block at hk ⊢
      omega
    rw [place_block hk] at h
    unfold BootModule.Inside
    rw [place_block hi']
    omega

/-- The loop is still running after as many rounds as there are headers. -/
theorem walkHeaders_eq_none_iff (fuel h : Nat) :
    m.walkHeaders fuel h = none ↔ partialRun m.nextHeader h fuel ≠ none := by
  induction fuel generalizing h with
  | zero => simp [BootModule.walkHeaders]
  | succ fuel ih =>
    rw [partialRun_succ', BootModule.walkHeaders, BootModule.nextHeader]
    by_cases hend : BootModule.physToVirt m.tarEnd ≤ h
    · simp [hend]
    by_cases hname : m.mem h = 0
    · by_cases hzero : m.mem (wrap32 (h + 257)) = 0
      · simp [hend, hname, hzero]
      · simp [hend, hname, hzero, ih]
    · by_cases hmagic : m.magicAt h
      · simp [hend, hname, hmagic, ih]
      · simp [hend, hname, hmagic]

theorem finite_headers (m : BootModule) :
    {h | ∃ n, partialRun m.nextHeader m.firstHeader n = some h}.Finite := by
  refine (Set.finite_lt_nat 4294967296).subset ?_
  rintro h ⟨n, hn⟩
  cases n with
  | zero =>
    obtain ⟨k, hk, hfirst, -⟩ := search_first m
    rw [partialRun_zero, Option.some.injEq] at hn
    change h < 4294967296
    rw [← hn, hfirst]
    exact hk
  | succ n =>
    rw [partialRun_succ, Option.bind_eq_some_iff] at hn
    obtain ⟨h', -, hnext⟩ := hn
    obtain ⟨next, rfl⟩ : ∃ next, h = wrap32 next := by
      unfold BootModule.nextHeader at hnext
      split_ifs at hnext <;> exact ⟨_, (Option.some.inj hnext).symm⟩
    exact wrap32_lt next

/-- The header loop ends exactly when it comes to no header twice. -/
theorem archive_ends_iff (m : BootModule) :
    (∃ fuel es, m.readArchive fuel = some es) ↔
      (m.Accepted → m.magicAt m.firstHeader → ∀ i j h, i < j →
        partialRun m.nextHeader m.firstHeader i = some h →
        partialRun m.nextHeader m.firstHeader j ≠ some h) := by
  unfold BootModule.readArchive BootModule.Accepted
  by_cases hbounds : m.tarStart = 0 ∨ m.tarEnd ≤ m.tarStart
  · simp only [if_pos hbounds]
    refine iff_of_true ⟨0, [], rfl⟩ fun haccepted => ?_
    omega
  by_cases hmagic : m.magicAt m.firstHeader
  · have haccepted : m.tarStart ≠ 0 ∧ m.tarStart < m.tarEnd := by omega
    change m.magicAt (m.searchHeader 17 _) at hmagic
    simp only [if_neg hbounds, if_pos hmagic]
    rw [← partialRun_ends_iff (finite_headers m)]
    constructor
    · rintro ⟨fuel, es, hread⟩ - -
      refine ⟨fuel, not_not.mp fun hrun => ?_⟩
      have hnone : m.walkHeaders fuel (m.searchHeader 17 (BootModule.physToVirt m.tarStart)) =
          none := (walkHeaders_eq_none_iff fuel _).mpr hrun
      rw [hnone] at hread
      cases hread
    · intro h
      obtain ⟨n, hn⟩ := h haccepted hmagic
      cases hwalk : m.walkHeaders n (m.searchHeader 17 (BootModule.physToVirt m.tarStart)) with
      | none => exact absurd hn ((walkHeaders_eq_none_iff n _).mp hwalk)
      | some es => exact ⟨n, es, hwalk⟩
  · refine iff_of_true ⟨0, [], ?_⟩ fun _ hmagic' => absurd hmagic' hmagic
    change ¬m.magicAt (m.searchHeader 17 _) = true at hmagic
    rw [if_neg hbounds, if_neg hmagic]

/-- The fields of a header lie in the module when it has enough room. -/
theorem headerFields_inside_iff (h : Nat) :
    (∀ f ∈ m.headerFields h, m.Inside h f.1 f.2) ↔
      m.place h + 263 ≤ m.tarEnd - m.tarStart ∧
        (m.mem h ≠ 0 ∧ m.magicAt h → m.place h + 500 ≤ m.tarEnd - m.tarStart) := by
  unfold BootModule.headerFields BootModule.Inside
  by_cases hentry : m.mem h ≠ 0 ∧ m.magicAt h
  · rw [if_pos hentry]
    simp only [List.cons_append, List.nil_append, List.forall_mem_cons, List.not_mem_nil,
      false_implies, implies_true, and_true]
    constructor
    · rintro ⟨-, hmagic, hpre, -, -⟩
      exact ⟨hmagic, fun _ => hpre⟩
    · rintro ⟨hmagic, hroom⟩
      have hpre := hroom hentry
      omega
  · rw [if_neg hentry]
    simp only [List.append_nil, List.forall_mem_cons, List.not_mem_nil, false_implies,
      implies_true, and_true]
    constructor
    · rintro ⟨-, hmagic⟩
      exact ⟨hmagic, fun hentry' => absurd hentry' hentry⟩
    · rintro ⟨hmagic, -⟩
      omega

/-- Mounting ends and stays inside of the module exactly when the headers that it comes to have
enough room, and none of them is come to twice. -/
theorem initrd_safe_iff (m : BootModule) : m.Safe ↔ m.Sound := by
  constructor
  · intro h
    have hroom := fun h' hcomes hlt => (headerFields_inside_iff h').mp (h.fieldsInside h' hcomes hlt)
    exact {
      first := fun haccepted => (search_inside_iff m).mp (h.searchInside haccepted)
      fresh := (archive_ends_iff m).mp h.loopEnds
      room := fun h' hcomes hlt => (hroom h' hcomes hlt).1
      entries := fun h' hcomes hentry => (hroom h' hcomes hentry.1).2 hentry.2
      files := h.filesInside }
  · intro h
    exact {
      searchEnds := searchHeader_ends m
      searchInside := fun haccepted => (search_inside_iff m).mpr (h.first haccepted)
      loopEnds := (archive_ends_iff m).mpr h.fresh
      fieldsInside := fun h' hcomes hlt => (headerFields_inside_iff h').mpr
        ⟨h.room h' hcomes hlt, fun hentry => h.entries h' hcomes ⟨hlt, hentry⟩⟩
      filesInside := h.files }

/-- An archive with the header of a directory whose size is 2^32 - 512. -/
def loopModule : BootModule where
  tarStart := 0x400000
  tarEnd := 0x400600
  mem a :=
    if a = 0xC0400000 then 100
    else if 0xC040007C ≤ a ∧ a < 0xC0400087 then
      [51, 55, 55, 55, 55, 55, 55, 55, 48, 48, 48].getD (a - 0xC040007C) 0
    else if a = 0xC040009C then 53
    else if 0xC0400101 ≤ a ∧ a < 0xC0400106 then
      [117, 115, 116, 97, 114].getD (a - 0xC0400101) 0
    else 0

/-- The next header is the same one, again and again. -/
theorem archive_loops : ¬loopModule.Safe := by
  intro h
  obtain ⟨fuel, es, hread⟩ := h.loopEnds
  have hfirst : loopModule.firstHeader = 0xC0400000 := by decide +kernel
  have hnext : loopModule.nextHeader 0xC0400000 = some 0xC0400000 := by decide +kernel
  have hmagic : loopModule.magicAt 0xC0400000 = true := by decide +kernel
  have hrun : ∀ n, partialRun loopModule.nextHeader 0xC0400000 n = some 0xC0400000 := by
    intro n
    induction n with
    | zero => rfl
    | succ n ih => rw [partialRun_succ, ih, Option.bind_some, hnext]
  refine (archive_ends_iff loopModule).mp ⟨fuel, es, hread⟩ ⟨by decide, by decide⟩
    (hfirst ▸ hmagic) 0 1 0xC0400000 Nat.one_pos ?_ ?_
  · rw [hfirst]
    exact hrun 0
  · rw [hfirst]
    exact hrun 1

end Bounds

end EnclaveOS
