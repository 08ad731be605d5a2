import EnclaveOS.Memory.DestroySpec

/-!
# SpaceKept - what a step leaves of a user half

A step of one process changes the user half of another at most in the flags of shared pages: an
entry stays, or takes its copy-on-write form, and the pages keep their bytes.
-/

namespace EnclaveOS

open PageWord RefCount

@[simp]
theorem frameOf_cowEntry (pte : Word) : frameOf (cowEntry pte) = frameOf pte := by
  have hlow : IsLow ((lowBits pte &&& ~~~pageWrite) ||| pageCow) :=
    isLow_or (isLow_and_left _ (isLow_lowBits pte)) (by decide)
  rw [cowEntry, frameOf_or hlow, frameOf_physOf]

theorem isPresent_cowEntry {pte : Word} (h : isPresent pte = true) :
    isPresent (cowEntry pte) = true := by
  have hkeep : hasFlag (lowBits pte &&& ~~~pageWrite) pagePresent = true := by
    rw [hasFlag_and_not_of_disjoint _ (by decide), hasFlag_lowBits _ (by decide), ← h]
  simp only [isPresent, cowEntry, hasFlag_or, hkeep, Bool.true_or, Bool.or_true]

theorem pageCow_cowEntry (pte : Word) : hasFlag (cowEntry pte) pageCow = true := by
  have hmark : hasFlag pageCow pageCow = true := by decide
  simp only [cowEntry, hasFlag_or, hmark, Bool.or_true]

theorem pageWrite_cowEntry (pte : Word) : hasFlag (cowEntry pte) pageWrite = false := by
  have hphys : hasFlag (physOf pte) pageWrite = false := hasFlag_physOf _ (by decide)
  have hmark : hasFlag pageCow pageWrite = false := by decide
  simp only [cowEntry, hasFlag_or, hphys, hmark, hasFlag_and_not_self, Bool.or_self]

/-- The copy-on-write form of an entry is its own copy-on-write form. -/
theorem cowEntry_cowEntry (pte : Word) : cowEntry (cowEntry pte) = cowEntry pte := by
  have hisLow : IsLow ((lowBits pte &&& ~~~pageWrite) ||| pageCow) :=
    isLow_or (isLow_and_left _ (isLow_lowBits pte)) (by decide)
  have hphys : physOf (cowEntry pte) = physOf pte := by
    rw [physOf_eq_frameAddr, frameOf_cowEntry, ← physOf_eq_frameAddr]
  have hlow : lowBits (cowEntry pte) = (lowBits pte &&& ~~~pageWrite) ||| pageCow :=
    lowBits_physOf_or pte hisLow
  have hmark : pageCow &&& ~~~pageWrite = pageCow := by decide
  rw [cowEntry, hphys, hlow, BitVec.and_or_distrib_right, hmark, BitVec.and_assoc, BitVec.and_self,
    BitVec.or_assoc, BitVec.or_self]
  rfl

theorem map_frameOf_cowEntry (entry : Option Word) :
    (entry.map cowEntry).map frameOf = entry.map frameOf := by
  rw [Option.map_map, show frameOf ∘ cowEntry = frameOf from funext frameOf_cowEntry]

theorem map_cowEntry_cowEntry (entry : Option Word) :
    (entry.map cowEntry).map cowEntry = entry.map cowEntry := by
  rw [Option.map_map, show cowEntry ∘ cowEntry = cowEntry from funext cowEntry_cowEntry]

/-- An entry as it was, or in its copy-on-write form. -/
def EntryKept (entry entry' : Option Word) : Prop :=
  entry' = entry ∨ entry' = entry.map cowEntry

theorem EntryKept.refl (entry : Option Word) : EntryKept entry entry :=
  Or.inl rfl

theorem EntryKept.trans {a b c : Option Word} (hab : EntryKept a b) (hbc : EntryKept b c) :
    EntryKept a c := by
  rcases hab with rfl | rfl
  · exact hbc
  · rcases hbc with rfl | rfl
    · exact Or.inr rfl
    · exact Or.inr (map_cowEntry_cowEntry a)

theorem EntryKept.frame {a b : Option Word} (h : EntryKept a b) :
    b.map frameOf = a.map frameOf := by
  rcases h with rfl | rfl
  · rfl
  · exact map_frameOf_cowEntry a

/-- The entries of the user half of `pd` are as they were, or in their copy-on-write form. -/
def EntriesKept (m m' : Machine) (pd : Nat) : Prop :=
  ∀ i < 768, ∀ j < 1024, EntryKept (siteEntry m (pd, i, j)) (siteEntry m' (pd, i, j))

theorem EntriesKept.refl (m : Machine) (pd : Nat) : EntriesKept m m pd :=
  fun _ _ _ _ => .refl _

theorem EntriesKept.trans {m m' m'' : Machine} {pd : Nat} (h : EntriesKept m m' pd)
    (h' : EntriesKept m' m'' pd) : EntriesKept m m'' pd :=
  fun i hi j hj => (h i hi j hj).trans (h' i hi j hj)

/-- The entries stay, and so do the pages that they map. -/
structure SpaceKept (m m' : Machine) (pd : Nat) : Prop where
  entries : EntriesKept m m' pd
  data : ∀ i < 768, ∀ j < 1024, ∀ f, siteFrame m (pd, i, j) = some f → m'.mem f = m.mem f

namespace SpaceKept

variable {m m' m'' : Machine} {pd : Nat}

theorem refl (m : Machine) (pd : Nat) : SpaceKept m m pd :=
  ⟨.refl m pd, fun _ _ _ _ _ _ => rfl⟩

theorem trans (h : SpaceKept m m' pd) (h' : SpaceKept m' m'' pd) : SpaceKept m m'' pd where
  entries := h.entries.trans h'.entries
  data i hi j hj f hf := by
    have hframe : siteFrame m' (pd, i, j) = some f := (h.entries i hi j hj).frame.trans hf
    rw [h'.data i hi j hj f hframe, h.data i hi j hj f hf]

theorem of_mem_eq (hmem : m'.mem = m.mem) (pd : Nat) : SpaceKept m m' pd where
  entries _ _ _ _ := Or.inl (by unfold siteEntry Machine.pteAt; rw [hmem])
  data _ _ _ _ f _ := congrFun hmem f

/-- The entries are the same. -/
theorem of_entries {pds : Finset Nat} (hpd : pd ∈ pds)
    (hentries : ∀ s ∈ userSites pds, s.1 = pd → siteEntry m' s = siteEntry m s)
    (hdata : ∀ s ∈ userSites pds, s.1 = pd → ∀ f, siteFrame m s = some f → m'.mem f = m.mem f) :
    SpaceKept m m' pd where
  entries _ hi _ hj := Or.inl (hentries _ (mem_userSites.mpr ⟨hpd, hi, hj⟩) rfl)
  data _ hi _ hj := hdata _ (mem_userSites.mpr ⟨hpd, hi, hj⟩) rfl

end SpaceKept

theorem foldl_mem_of_ne {f : Machine → Nat → Machine} {g : Nat} {l : List Nat}
    (hstep : ∀ m i, (f m i).mem g = m.mem g) (m : Machine) : (l.foldl f m).mem g = m.mem g := by
  induction l generalizing m with
  | nil => rfl
  | cons i l ih => rw [List.foldl_cons, ih, hstep]

theorem destroyDirEntry_mem_of_ne {pd g : Nat} (hg : g ≠ pd) (m : Machine) (i : Nat) :
    (destroyDirEntry pd m i).mem g = m.mem g := by
  have hentry : ∀ pt m j, (destroyEntry pt m j).mem g = m.mem g := by
    intro pt m j
    unfold destroyEntry
    split_ifs
    · exact congrFun (Machine.decRef_mem _ _) g
    · rfl
  unfold destroyDirEntry
  dsimp only
  split_ifs
  · rfl
  · rw [Machine.setWord_mem_of_ne hg, foldl_mem_of_ne]
    intro m p
    rw [Machine.decRef_mem]
  · rw [Machine.setWord_mem_of_ne hg, Machine.decRef_mem, foldl_mem_of_ne (hentry _)]

/-- `vmm_destroy_address_space` writes to the directory only. -/
theorem vmmDestroyAddressSpace_mem_of_ne {m : Machine} {pd g : Nat} (hg : g ≠ pd) :
    (vmmDestroyAddressSpace m pd).mem g = m.mem g := by
  unfold vmmDestroyAddressSpace
  split_ifs
  · rfl
  · rw [Machine.freePage_mem, foldl_mem_of_ne (destroyDirEntry_mem_of_ne hg)]

namespace VmInv

variable {m : Machine} {pds : Finset Nat} {own : Nat → Owner} {pd : Nat}

/-- A step that writes neither to the directory, nor to its tables, nor to a page. -/
theorem space_of_mem (h : VmInv m pds own) (hpd : pd ∈ pds) {m' : Machine}
    (hmem : ∀ g, g = pd ∨ (∃ i, own g = .table pd i) ∨ own g = .page → m'.mem g = m.mem g) :
    SpaceKept m m' pd := by
  have hdir : m'.mem pd = m.mem pd := hmem pd (Or.inl rfl)
  constructor
  · intro i hi j hj
    left
    simp only [siteEntry, Machine.pteAt, hdir]
    cases hpde : isPresent (m.mem pd i) with
    | false => simp
    | true => simp [hmem _ (Or.inr (Or.inl ⟨i, h.table pd hpd i hi hpde⟩))]
  · intro i hi j hj f hf
    exact hmem f (Or.inr (Or.inr (h.page_of_frame (mem_userSites.mpr ⟨hpd, hi, hj⟩) hf)))

/-- Destroying one address space leaves another. -/
theorem space_destroy (h : VmInv m pds own) {other : Nat} (hpd : pd ∈ pds) (hother : other ∈ pds)
    (hne : other ≠ pd) : SpaceKept m (EnclaveOS.vmmDestroyAddressSpace m pd) other := by
  have hdir := h.dir pd hpd
  apply h.space_of_mem hother
  intro g hg
  apply vmmDestroyAddressSpace_mem_of_ne
  rintro rfl
  rcases hg with rfl | ⟨i, hg⟩ | hg
  · exact hne rfl
  · rw [hdir] at hg
    cases hg
  · rw [hdir] at hg
    cases hg

end VmInv

/-- A new directory leaves the others. -/
theorem VmInv.NewDir.space {m m' : Machine} {pds : Finset Nat} {own : Nat → Owner} {n pd : Nat}
    (h : VmInv m pds own) (hnew : VmInv.NewDir m pds own n m') (hpd : pd ∈ pds) :
    SpaceKept m m' pd :=
  .of_entries hpd (fun _ hs _ => hnew.entries _ hs)
    fun _ hs _ f hf => hnew.data f (h.page_of_frame hs hf)

end EnclaveOS
