import EnclaveOS.Process.ElfContents

/-!
# ElfConfined - the loader and the kernel half

A load stores into its own pages and leaves the kernel half alone, unless a copy loop reaches
the first kernel address.  The area check and the mapping loop look at the wrapped end of a
segment, the copy loop at the number of its bytes: a segment that begins in the last page below
3 GB and wraps goes through all three.
-/

namespace EnclaveOS

open PageWord RefCount

/-- The kernel half of a directory: its entries, the tables behind them, and the frames of the
tables, which are not given back. -/
structure KernelHalfKept (m m' : Machine) (pd : Nat) : Prop where
  entry : ∀ i, 768 ≤ i → i < 1024 → m'.mem pd i = m.mem pd i
  table : ∀ i, 768 ≤ i → i < 1024 → isPresent (m.mem pd i) = true →
    m'.mem (frameOf (m.mem pd i)) = m.mem (frameOf (m.mem pd i))
  used : ∀ i, 768 ≤ i → i < 1024 → isPresent (m.mem pd i) = true →
    frameOf (m.mem pd i) < m'.pmm.maxPage → m'.pmm.bitmap (frameOf (m.mem pd i)) = true

/-- A load that returns, having stored into user pages that it mapped to frames of its own, and
that leaves the kernel half. -/
structure LoadConfined (m : Machine) (pd : Nat) (res : ElfState × ElfStatus × Nat) : Prop where
  returns : res.2.1 ≠ .halted
  stores : Confined res.1.trace
  half : KernelHalfKept m res.1.machine pd

/-- The load comes to a copy loop that reaches the first kernel address. -/
def LoadEscapes (file : VfsFile) (pd : Nat) (m : Machine) (k : Kmalloc) : Prop :=
  ∃ header h t, elfHeader file = some header ∧
    CopyReached file pd header (List.range header.ePhnum) (.start m k) h t ∧
    SegmentEscapes file pd h t

variable {m : Machine} {pds : Finset Nat} {own own' : Nat → Owner} {R : Nat → Nat → Prop}
  {pd : Nat} {s : ElfState}

/-- The invariant of the load says what stays of the kernel half. -/
theorem ElfInv.half_kept (h : ElfInv m own pds pd s own') (h₀ : VmInv m pds own) (hpd : pd ∈ pds)
    (htables : ∀ i, 768 ≤ i → i < 1024 → isPresent (m.mem pd i) = true →
      ∃ use, own (frameOf (m.mem pd i)) = .kernel use) : KernelHalfKept m s.machine pd where
  entry := fun i hi hi' => h.kernelHalf h₀ hpd hi hi'
  table := by
    intro i hi hi' hpres
    obtain ⟨use, huse⟩ := htables i hi hi' hpres
    exact h.kernel.mem _ use huse
  used := by
    intro i hi hi' hpres hlimit
    obtain ⟨use, huse⟩ := htables i hi hi' hpres
    have hnotfree : own' (frameOf (m.mem pd i)) ≠ .free := by
      rw [(h.kernel.owner _ use).mp huse]
      rintro ⟨⟩
    exact Bool.of_not_eq_false (mt (h.inv.free_iff _ hlimit).mpr hnotfree)

/-- The segments of a file, up to the end of the load. -/
theorem elfLoad_segments {file : VfsFile} {header : Elf32Header}
    (hheader : elfHeader file = some header) (pd : Nat) (m : Machine) (k : Kmalloc) :
    (elfLoad file pd m k).1 =
        (elfSegments file pd header (List.range header.ePhnum) (.start m k)).1 ∧
      (elfLoad file pd m k).2.1 =
        (elfSegments file pd header (List.range header.ePhnum) (.start m k)).2 := by
  unfold elfLoad
  rw [hheader]
  dsimp only
  generalize elfSegments file pd header (List.range header.ePhnum) (.start m k) = res
  obtain ⟨s, status⟩ := res
  cases status <;> exact ⟨rfl, rfl⟩

/-- A load into a new space stays in its own pages, if and only if it comes to no copy loop that
reaches the first kernel address. -/
theorem elf_load_confined_iff (h : VmInv m pds own) (hhalf : KernelHalf m own R) (hpd : pd ∈ pds)
    (hempty : ∀ i < 768, m.mem pd i = 0#32) (file : VfsFile) (k : Kmalloc) :
    LoadConfined m pd (elfLoad file pd m k) ↔ ¬LoadEscapes file pd m k := by
  have htables := h.kernelTables hhalf hpd
  have hstart := ElfInv.start h hempty k
  cases hheader : elfHeader file with
  | none =>
    have hload : elfLoad file pd m k = (.start m k, .failed, 0) := by
      unfold elfLoad
      rw [hheader]
    rw [hload]
    refine iff_of_true ⟨by rintro ⟨⟩, hstart.confined, hstart.half_kept h hpd htables⟩ ?_
    rintro ⟨header, ph, t, hsome, -⟩
    rw [hheader] at hsome
    cases hsome
  | some header =>
    obtain ⟨hstate, hstatus⟩ := elfLoad_segments hheader pd m k
    obtain ⟨hkeep, hescape⟩ := @ElfInv.segments _ _ _ _ _ _ file header
      (List.range header.ePhnum) h hpd htables hstart
    constructor
    · rintro hconfined ⟨header', ph, t, hsome, hreached, hescapes⟩
      rw [hheader] at hsome
      cases hsome
      have hstores := hconfined.stores
      rw [hstate] at hstores
      exact (hescape ph t hreached hescapes).not_confined hstores
    · intro hno
      obtain ⟨hreturns, own', hinv⟩ := hkeep fun ph t hreached hescapes =>
        hno ⟨header, ph, t, hheader, hreached, hescapes⟩
      refine ⟨by rwa [hstatus], ?_, ?_⟩
      · rw [hstate]
        exact hinv.confined
      · rw [hstate]
        exact hinv.half_kept h hpd htables

/-- An executable with a segment in the last page below 3 GB, and one of two bytes from its last
address on, whose end wraps. -/
def overrunFile : VfsFile := .ofBytes <| (twoSegments 0).take 52 ++
  leBytes 4 ptLoad ++ leBytes 4 0 ++ leBytes 4 0xBFFFF000 ++ leBytes 4 0 ++
    leBytes 4 0 ++ leBytes 4 4096 ++ leBytes 4 6 ++ leBytes 4 4096 ++
  leBytes 4 ptLoad ++ leBytes 4 0 ++ leBytes 4 0xBFFFFFFF ++ leBytes 4 0 ++
    leBytes 4 2 ++ leBytes 4 0x40000001 ++ leBytes 4 6 ++ leBytes 4 4096

/-- The load ends with the entry point, and has stored a byte at 3 GB. -/
theorem overrunFile_load : ∃ m pds own pd, VmInv m pds own ∧ pd ∈ pds ∧
    (∀ i < 768, m.mem pd i = 0#32) ∧
    ((elfLoad overrunFile pd m []).2.2 ≠ 0 ∧ Escaped (elfLoad overrunFile pd m []).1.trace) ∧
    ∃ R, KernelHalf m own R := by
  obtain ⟨m, pds, own, pd, hinv, hpd, hempty, hcheck, hhalf⟩ :=
    @smallLoad_of_check overrunFile (fun _ res => decide (res.2.2 ≠ 0) &&
      res.1.trace.stored.any fun st => decide (0 < st.count ∧ kernelSpaceStart ≤ st.addr))
      (by decide +kernel)
  rw [Bool.and_eq_true, List.any_eq_true] at hcheck
  obtain ⟨hentry, st, hst, hescaped⟩ := hcheck
  exact ⟨m, pds, own, pd, hinv, hpd, hempty,
    ⟨of_decide_eq_true hentry, st, hst, of_decide_eq_true hescaped⟩, hhalf⟩

/-- The load of a file stores a byte in the kernel half. -/
theorem overrun_escapes : ∃ m pds own pd, VmInv m pds own ∧ pd ∈ pds ∧
    (∀ i < 768, m.mem pd i = 0#32) ∧ (∃ R, KernelHalf m own R) ∧
    (elfLoad overrunFile pd m []).2.2 ≠ 0 ∧
    (∃ st ∈ (elfLoad overrunFile pd m []).1.trace.stored,
      0 < st.count ∧ kernelSpaceStart ≤ st.addr) ∧
    ¬LoadConfined m pd (elfLoad overrunFile pd m []) := by
  obtain ⟨m, pds, own, pd, hinv, hpd, hempty, ⟨hentry, hescaped⟩, hhalf⟩ := overrunFile_load
  exact ⟨m, pds, own, pd, hinv, hpd, hempty, hhalf, hentry, hescaped,
    fun hconfined => hescaped.not_confined hconfined.stores⟩

/-- The same load: the second segment comes to its copy loop and reaches the kernel half. -/
theorem elf_load_confined_overrun : ∃ m pds own pd, VmInv m pds own ∧ pd ∈ pds ∧
    (∀ i < 768, m.mem pd i = 0#32) ∧ (∃ R, KernelHalf m own R) ∧
    (LoadConfined m pd (elfLoad overrunFile pd m []) ↔ ¬LoadEscapes overrunFile pd m []) := by
  obtain ⟨m, pds, own, pd, hinv, hpd, hempty, -, R, hhalf⟩ := overrunFile_load
  exact ⟨m, pds, own, pd, hinv, hpd, hempty, ⟨R, hhalf⟩,
    elf_load_confined_iff hinv hhalf hpd hempty overrunFile []⟩

end EnclaveOS
