import EnclaveOS.Fs.FatListing

/-!
# LongNames - long names of FAT32 in their buffer

A long-name entry is stored at 13 bytes for each entry before it, in UTF-8, which takes up to
three bytes for a unit.  Nothing compares the place with the 256 bytes of the buffer.
-/

namespace EnclaveOS

open ByteMemory

/-- The bytes of some units in UTF-8, without the padding. -/
def utf8 (units : List (BitVec 16)) : List (BitVec 8) :=
  (units.filter (· ≠ 0xFFFF)).flatMap ucs2ToUtf8

@[simp] theorem utf8_nil : utf8 [] = [] := rfl

theorem utf8_cons_pad (units : List (BitVec 16)) : utf8 (0xFFFF :: units) = utf8 units := rfl

theorem utf8_cons {unit : BitVec 16} (h : unit ≠ 0xFFFF) (units : List (BitVec 16)) :
    utf8 (unit :: units) = ucs2ToUtf8 unit ++ utf8 units := by
  unfold utf8
  rw [List.filter_cons_of_pos (by simpa using h), List.flatMap_cons]

theorem utf8_append (units units' : List (BitVec 16)) :
    utf8 (units ++ units') = utf8 units ++ utf8 units' := by
  unfold utf8
  rw [List.filter_append, List.flatMap_append]

theorem length_ucs2ToUtf8_pos (unit : BitVec 16) : 0 < (ucs2ToUtf8 unit).length := by
  unfold ucs2ToUtf8
  split_ifs <;> simp

/-- An entry without bytes to store, or whose bytes have room in the buffer. -/
def DirEntry.LfnFits (lfn : DirEntry) : Prop :=
  utf8 lfn.units = [] ∨ 1 ≤ (lfn.order &&& 0x1F).toNat ∧
    ((lfn.order &&& 0x1F).toNat - 1) * 13 + (utf8 lfn.units).length ≤ 256

/-- The loops over the units store their bytes one after the other. -/
theorem lfnStore_eq (units : List (BitVec 16)) (pos : Int) (buffer : Bytes) :
    lfnStore units pos buffer =
      if utf8 units = [] ∨ 0 ≤ pos ∧ pos + (utf8 units).length ≤ 256 then
        some (storeBytes buffer pos.toNat (utf8 units))
      else none := by
  induction units generalizing pos buffer with
  | nil => rfl
  | cons unit units ih =>
    rw [lfnStore]
    by_cases hpad : unit = 0xFFFF
    · subst hpad
      rw [if_neg (by simp), ih, utf8_cons_pad]
    · have hpos := length_ucs2ToUtf8_pos unit
      rw [if_pos hpad, utf8_cons hpad]
      have hne : ucs2ToUtf8 unit ++ utf8 units ≠ [] := by
        intro hnil
        rw [List.append_eq_nil_iff] at hnil
        rw [hnil.1] at hpos
        simp at hpos
      by_cases hroom : 0 ≤ pos ∧ pos + (ucs2ToUtf8 unit).length ≤ 256
      · rw [if_pos hroom, ih, storeBytes_append,
          show (pos + (ucs2ToUtf8 unit).length).toNat = pos.toNat + (ucs2ToUtf8 unit).length by
            omega]
        congr 1
        rw [List.length_append]
        by_cases hrest : utf8 units = []
        · rw [hrest]
          simp only [List.length_nil, Nat.add_zero, true_or, eq_iff_iff, true_iff]
          exact Or.inr hroom
        · simp only [hrest, hne, false_or, eq_iff_iff]
          omega
      · rw [if_neg hroom, if_neg]
        rintro (hnil | hfit)
        · exact hne hnil
        · rw [List.length_append] at hfit
          omega

/-- Storing an entry. -/
theorem lfnStore_units (lfn : DirEntry) (buffer : Bytes) :
    lfnStore lfn.units lfn.lfnPos buffer = none ↔ ¬lfn.LfnFits := by
  rw [lfnStore_eq]
  unfold DirEntry.LfnFits DirEntry.lfnPos
  by_cases hnil : utf8 lfn.units = []
  · simp [hnil]
  · simp only [hnil, false_or]
    by_cases hfit : 1 ≤ (lfn.order &&& 0x1F).toNat ∧
      ((lfn.order &&& 0x1F).toNat - 1) * 13 + (utf8 lfn.units).length ≤ 256
    · rw [if_pos (by omega)]
      simpa using hfit
    · rw [if_neg (by omega)]
      simpa using hfit

/-- An entry that a walk stores: it starts a long name, or it has the checksum of the one that
is being collected. -/
def Collects (long : Option LongName) (lfn : DirEntry) : Prop :=
  lfn 0 ≠ fat32EntryEnd ∧ lfn 0 ≠ fat32EntryDeleted ∧ lfn.attr = fat32AttrLfn ∧
    (lfn.order &&& 0x40 ≠ 0 ∨ ∃ buffer, long = some (lfn.checksum, buffer))

/-- A long name overruns at an entry that is stored and does not fit. -/
theorem longNext_eq_none_iff (lfn : DirEntry) (long : Option LongName) :
    longNext lfn long = none ↔
      (lfn.order &&& 0x40 ≠ 0 ∨ ∃ buffer, long = some (lfn.checksum, buffer)) ∧ ¬lfn.LfnFits := by
  unfold longNext
  by_cases hfirst : lfn.order &&& 0x40 ≠ 0
  · rw [if_pos hfirst]
    dsimp only
    rw [if_pos rfl, Option.map_eq_none_iff, lfnStore_units]
    exact ⟨fun hfits => ⟨Or.inl hfirst, hfits⟩, And.right⟩
  · rw [if_neg hfirst]
    simp only [hfirst, false_or]
    cases long with
    | none => simp
    | some long =>
      obtain ⟨sum, buffer⟩ := long
      dsimp only
      by_cases hsum : lfn.checksum = sum
      · rw [if_pos hsum, Option.map_eq_none_iff, lfnStore_units]
        simp [hsum]
      · rw [if_neg hsum]
        simp [Ne.symm hsum]

theorem dirEvent_eq_overrun_iff (dir : DirEntry) (long : Option LongName) :
    dirEvent dir long = .overrun ↔ Collects long dir ∧ ¬dir.LfnFits := by
  unfold dirEvent Collects
  by_cases hend : dir 0 = fat32EntryEnd
  · simp [hend]
  by_cases hdeleted : dir 0 = fat32EntryDeleted
  · simp [hdeleted, show ¬fat32EntryDeleted = fat32EntryEnd by decide]
  rw [if_neg hend, if_neg hdeleted]
  by_cases hlfn : dir.attr = fat32AttrLfn
  · rw [if_pos hlfn]
    simp only [ne_eq, hend, not_false_eq_true, hdeleted, hlfn, true_and]
    rw [← ne_eq, ← longNext_eq_none_iff]
    cases longNext dir long <;> simp
  · rw [if_neg hlfn]
    simp only [hlfn, false_and, and_false, iff_false]
    split_ifs <;> simp

theorem readdirEntry_overrun_iff (index : Nat) (entry : FatDirent) (dir : DirEntry)
    (s : ReaddirState) :
    readdirEntry index entry dir s = .overrun ↔ Collects s.lfn.long dir ∧ ¬dir.LfnFits := by
  rw [← dirEvent_eq_overrun_iff]
  have hstep := readdirEntry_event index entry dir s
  cases hevent : dirEvent dir s.lfn.long with
  | stop =>
    rw [hevent] at hstep
    simp [hstep]
  | skip long =>
    rw [hevent] at hstep
    obtain ⟨lfn, -, hnext⟩ := hstep
    simp [hnext]
  | file long =>
    rw [hevent] at hstep
    dsimp only at hstep
    by_cases hindex : s.currentIndex = index
    · rw [if_pos hindex] at hstep
      simp [hstep]
    · rw [if_neg hindex] at hstep
      obtain ⟨lfn, -, hnext⟩ := hstep
      simp [hnext]
  | overrun =>
    rw [hevent] at hstep
    simp [hstep]

theorem finddirEntry_overrun_iff (fs : Fat32Volume) (name : List (BitVec 8)) (stack : Bytes)
    (dir : DirEntry) (s : LfnState) :
    finddirEntry fs name stack dir s = .overrun ↔ Collects s.long dir ∧ ¬dir.LfnFits := by
  rw [← dirEvent_eq_overrun_iff]
  have hstep := finddirEntry_event fs name stack dir s
  cases hevent : dirEvent dir s.long with
  | stop =>
    rw [hevent] at hstep
    simp [hstep]
  | skip long =>
    rw [hevent] at hstep
    obtain ⟨lfn, -, hnext⟩ := hstep
    simp [hnext]
  | file long =>
    rw [hevent] at hstep
    dsimp only at hstep
    by_cases hname : nameIn (storedName stack dir long) = name
    · rw [if_pos hname] at hstep
      simp [hstep]
    · rw [if_neg hname] at hstep
      obtain ⟨lfn, -, hnext⟩ := hstep
      simp [hnext]
  | overrun =>
    rw [hevent] at hstep
    simp [hstep]

/-- A walk comes to an entry in some state. -/
def Fat32Volume.Reaches {σ α : Type} (disk : Disk) (v : Fat32Volume)
    (step : DirEntry → σ → Scan σ (Option α)) (start : Nat) (cache : FatCache) (s₀ : σ)
    (dir : DirEntry) (s : σ) : Prop :=
  ∃ n pre post, v.Live disk start cache n ∧
    v.chainItems disk start cache n = pre ++ some dir :: post ∧
    scanList (itemStep step) pre s₀ = .next s

/-- A walk overruns at an entry that it comes to. -/
theorem walk_overrun_iff_reaches {σ α : Type} {disk : Disk} {v : Fat32Volume} {start : Nat}
    {cache : FatCache} {step : DirEntry → σ → Scan σ (Option α)} {s₀ : σ} :
    (∃ rounds, (v.walk disk step rounds start cache s₀).result = .overrun) ↔
      ∃ dir s, v.Reaches disk step start cache s₀ dir s ∧ step dir s = .overrun := by
  rw [walk_overrun_iff]
  simp only [scanList_eq_overrun_iff]
  constructor
  · rintro ⟨n, hlive, pre, item, post, s, hitems, hpre, hstep⟩
    cases item with
    | none => cases hstep
    | some dir => exact ⟨dir, s, ⟨n, pre, post, hlive, hitems, hpre⟩, hstep⟩
  · rintro ⟨dir, s, ⟨n, pre, post, hlive, hitems, hpre⟩, hstep⟩
    exact ⟨n, hlive, pre, some dir, post, s, hitems, hpre, hstep⟩

/-- A walk stays inside of its buffer as long as the entries that it stores fit. -/
theorem walk_inside_iff {σ α : Type} {disk : Disk} {v : Fat32Volume} {start : Nat}
    {cache : FatCache} {step : DirEntry → σ → Scan σ (Option α)} {s₀ : σ}
    {long : σ → Option LongName}
    (hstep : ∀ dir s, step dir s = .overrun ↔ Collects (long s) dir ∧ ¬dir.LfnFits) :
    (∀ rounds, (v.walk disk step rounds start cache s₀).result ≠ .overrun) ↔
      ∀ lfn s, v.Reaches disk step start cache s₀ lfn s → Collects (long s) lfn → lfn.LfnFits := by
  have hover : (∃ rounds, (v.walk disk step rounds start cache s₀).result = .overrun) ↔
      ∃ dir s, v.Reaches disk step start cache s₀ dir s ∧ step dir s = .overrun :=
    walk_overrun_iff_reaches
  simp only [hstep] at hover
  constructor
  · intro hinside lfn s hreaches hcollects
    by_contra hfits
    obtain ⟨rounds, hresult⟩ := hover.mpr ⟨lfn, s, hreaches, hcollects, hfits⟩
    exact hinside rounds hresult
  · intro hfits rounds hresult
    obtain ⟨lfn, s, hreaches, hcollects, hnot⟩ := hover.mp ⟨rounds, hresult⟩
    exact hnot (hfits lfn s hreaches hcollects)

/-- The two walks over a directory stay inside of `lfn_buffer` exactly when every long-name
entry that they come to and store fits. -/
theorem long_names_inside_iff (disk : Disk) (node : FatNode) (cache : FatCache) :
    (∀ index entry, (∀ rounds, (node.readdir disk index entry rounds cache).result ≠ .overrun) ↔
      ∀ v start, node.volume = some (v, start) → ∀ lfn s,
        v.Reaches disk (readdirEntry index entry) start cache ⟨0, .start fun _ => 0⟩ lfn s →
        Collects s.lfn.long lfn → lfn.LfnFits) ∧
    ∀ name stack, (∀ rounds, (node.finddir disk name stack rounds cache).result ≠ .overrun) ↔
      ∀ v start, node.volume = some (v, start) → ∀ lfn s,
        v.Reaches disk (finddirEntry v name stack.2) start cache (.start stack.1) lfn s →
        Collects s.long lfn → lfn.LfnFits := by
  unfold FatNode.readdir FatNode.finddir
  cases node.volume with
  | none => simp
  | some fat =>
    obtain ⟨v, start⟩ := fat
    refine ⟨fun index entry => (walk_inside_iff (readdirEntry_overrun_iff index entry)).trans ?_,
      fun name stack => (walk_inside_iff (finddirEntry_overrun_iff v name stack.2)).trans ?_⟩
    all_goals
      constructor
      · rintro h _ _ ⟨⟩
        exact h
      · exact fun h => h v start rfl

/-- The name and the number that `fat32_readdir` has stored. -/
def FatResult.listed : FatResult (Option FatDirent) → Option (List (BitVec 8) × Nat)
  | .done (some d) _ => some (nameIn d.name, d.ino)
  | _ => none

/-- An entry with the order byte 0x40 is stored in front of the buffer. -/
theorem order_zero_overruns :
    (smallVolume.root.readdir (smallDisk rootFat
      [lfnBytes 0x40 0 (List.replicate 13 0x41)]) 0 ⟨0, fun _ => 0⟩ 1
      .boot).result = .overrun := by
  rfl

end EnclaveOS
