import EnclaveOS.Fs.FatScan
import Mathlib.Data.List.TakeWhile

/-!
# FatListing - what a FAT directory lists

The listing of a directory is the list of its files with their names.  `fat32_readdir`
answers by position in it, `fat32_finddir` by name.
-/

namespace EnclaveOS

open ByteMemory

/-- A long name that is being collected: the checksum of its entries, and the buffer. -/
abbrev LongName := BitVec 8 × Bytes

/-- The long name that a walk collects, if any. -/
def LfnState.long (s : LfnState) : Option LongName :=
  if s.active then some (s.expectedChecksum, s.buffer) else none

/-- The position of the first byte of a long-name entry. -/
def DirEntry.lfnPos (lfn : DirEntry) : Int := (((lfn.order &&& 0x1F).toNat : Int) - 1) * 13

/-- The long name after one more entry of it. -/
def longNext (lfn : DirEntry) (long : Option LongName) : Option (Option LongName) :=
  match if lfn.order &&& 0x40 ≠ 0 then some (lfn.checksum, fun _ => 0) else long with
  | none => some none
  | some (sum, buffer) =>
    if lfn.checksum = sum then
      (lfnStore lfn.units lfn.lfnPos buffer).map fun buffer => some (sum, buffer)
    else some (some (sum, buffer))

/-- The bytes that a walk stores for the name of a file: its long name, if it belongs to the
file and is not empty. -/
def storedName (dest : Bytes) (dir : DirEntry) : Option LongName → Bytes
  | some (sum, buffer) =>
    if lfnChecksum dir = sum ∧ buffer 0 ≠ 0 then kStrncpy dest buffer 255
    else storeBytes dest 0 (shortName dir ++ [0])
  | none => storeBytes dest 0 (shortName dir ++ [0])

/-- The name of a file. -/
def fullName (dir : DirEntry) : Option LongName → List (BitVec 8)
  | some (sum, buffer) =>
    if lfnChecksum dir = sum ∧ buffer 0 ≠ 0 then nameIn buffer
    else (shortName dir).takeWhile (· ≠ 0)
  | none => (shortName dir).takeWhile (· ≠ 0)

/-- What an entry means to a walk. -/
inductive DirEvent
  /-- The directory ends here. -/
  | stop
  /-- No file; the long name that goes on. -/
  | skip (long : Option LongName)
  /-- A file, with the long name collected for it. -/
  | file (long : Option LongName)
  /-- The long name leaves its buffer. -/
  | overrun

/-- The meaning of an entry. -/
def dirEvent (dir : DirEntry) (long : Option LongName) : DirEvent :=
  if dir 0 = fat32EntryEnd then .stop
  else if dir 0 = fat32EntryDeleted then .skip long
  else if dir.attr = fat32AttrLfn then
    match longNext dir long with
    | none => .overrun
    | some long => .skip long
  else if dir.attr &&& fat32AttrVolumeId ≠ 0 then .skip none
  else .file long

/-- The meaning of an item: an unreadable sector ends a directory. -/
def itemEvent : Option DirEntry → Option LongName → DirEvent
  | none, _ => .stop
  | some dir, long => dirEvent dir long

/-- The files of a directory, each with the long name collected for it. -/
def listing : List (Option DirEntry) → Option LongName → List (DirEntry × Option LongName)
  | [], _ => []
  | none :: _, _ => []
  | some dir :: rest, long =>
    match dirEvent dir long with
    | .stop => []
    | .skip long => listing rest long
    | .file long => (dir, long) :: listing rest none
    | .overrun => []

/-- What an entry means to the scan of a listing for its end. -/
def DirEvent.scan : DirEvent → Scan (Option LongName) Unit
  | .stop => .done ()
  | .skip long => .next long
  | .file _ => .next none
  | .overrun => .overrun

/-- How a listing comes to its end: there is nothing more to list, the items are used up, or
a long name leaves its buffer. -/
def listEnd : List (Option DirEntry) → Option LongName → Scan (Option LongName) Unit :=
  scanList fun item long => (itemEvent item long).scan

theorem listEnd_cons (dir : DirEntry) (rest : List (Option DirEntry)) (long : Option LongName) :
    listEnd (some dir :: rest) long = (dirEvent dir long).scan.andThen (listEnd rest) := rfl

/-- A listing goes on behind entries that do not end it. -/
theorem listing_append {items items' : List (Option DirEntry)} {long long' : Option LongName}
    (h : listEnd items long = .next long') :
    listing (items ++ items') long = listing items long ++ listing items' long' := by
  induction items generalizing long with
  | nil =>
    cases h
    rfl
  | cons item items ih =>
    cases item with
    | none => cases h
    | some dir =>
      rw [listEnd_cons] at h
      rw [List.cons_append, listing, listing]
      cases hevent : dirEvent dir long with
      | stop =>
        rw [hevent] at h
        cases h
      | skip long =>
        rw [hevent] at h
        exact ih h
      | file long =>
        rw [hevent] at h
        exact congrArg _ (ih h)
      | overrun =>
        rw [hevent] at h
        cases h

section Names

theorem length_takeWhile_le {α : Type*} (p : α → Bool) (l : List α) :
    (l.takeWhile p).length ≤ l.length :=
  (List.takeWhile_sublist p).length_le

theorem length_shortName (dir : DirEntry) : (shortName dir).length ≤ 12 := by
  unfold shortName
  have hbase := length_takeWhile_le (· ≠ space) ((List.range 8).map dir)
  have hext := length_takeWhile_le (· ≠ space) ((List.range 3).map fun j => dir (8 + j))
  rw [List.length_map, List.length_range] at hbase hext
  rw [List.length_append]
  split_ifs
  · rw [List.length_cons]
    omega
  · rw [List.length_nil]
    omega

/-- The items before the first one that fails a test. -/
theorem takeWhile_eq_take {α : Type*} {p : α → Bool} {l : List α} {n : Nat} (hn : n < l.length)
    (hpass : ∀ i, ∀ h : i < n, p (l.get ⟨i, h.trans hn⟩)) (hstop : p l[n] = false) :
    l.takeWhile p = l.take n := by
  conv_lhs => rw [← List.take_append_drop n l, List.drop_eq_getElem_cons hn]
  rw [List.takeWhile_append_of_pos, List.takeWhile_cons_of_neg (by simp [hstop]), List.append_nil]
  intro x hx
  obtain ⟨i, hi, rfl⟩ := List.getElem_of_mem hx
  rw [List.getElem_take]
  exact hpass i (by rw [List.length_take] at hi; omega)

/-- The string in a buffer, up to its first NUL. -/
theorem nameIn_of_nul {buffer : Bytes} {n : Nat} (hn : n < 256) (hpass : ∀ i < n, buffer i ≠ 0)
    (hstop : buffer n = 0) : nameIn buffer = (List.range n).map buffer := by
  unfold nameIn
  rw [takeWhile_eq_take (n := n) (by simpa using hn), ← List.map_take, List.take_range,
    Nat.min_eq_left hn.le]
  · intro i hi
    simpa using hpass i hi
  · simpa using hstop

/-- A string in a buffer ends at its first NUL. -/
theorem nameIn_eq_iff {buffer : Bytes} {name : List (BitVec 8)} (hlen : name.length < 256) :
    nameIn buffer = name ↔
      (∀ i, ∀ h : i < name.length, buffer i = name[i] ∧ name[i] ≠ 0) ∧ buffer name.length = 0 := by
  constructor
  · intro hname
    by_cases hnul : ∃ n, n < 256 ∧ buffer n = 0
    · obtain ⟨hlt, hstop⟩ := Nat.find_spec hnul
      have hpass : ∀ i < Nat.find hnul, buffer i ≠ 0 := fun i hi hzero =>
        Nat.find_min hnul hi ⟨hi.trans hlt, hzero⟩
      rw [nameIn_of_nul hlt hpass hstop] at hname
      subst hname
      refine ⟨fun i hi => ?_, by simpa using hstop⟩
      rw [List.length_map, List.length_range] at hi
      rw [List.getElem_map, List.getElem_range]
      exact ⟨rfl, hpass i hi⟩
    · -- without a NUL the string fills the buffer
      have hall : nameIn buffer = (List.range 256).map buffer := by
        unfold nameIn
        rw [List.takeWhile_eq_self_iff]
        intro x hx
        obtain ⟨i, hi, rfl⟩ := List.mem_map.mp hx
        simpa using fun hzero => hnul ⟨i, List.mem_range.mp hi, hzero⟩
      rw [← hname, hall] at hlen
      simp at hlen
  · rintro ⟨hbytes, hstop⟩
    rw [nameIn_of_nul hlen (fun i hi => (hbytes i hi).1 ▸ (hbytes i hi).2) hstop]
    apply List.ext_getElem (by simp)
    intro i hi hi'
    rw [List.getElem_map, List.getElem_range]
    exact (hbytes i hi').1

/-- A copy with `k_strncpy` keeps the strings that fit. -/
theorem nameIn_kStrncpy_iff (dest : Bytes) {buffer : Bytes} {name : List (BitVec 8)}
    (hlen : name.length ≤ 254) :
    nameIn (kStrncpy dest buffer 255) = name ↔ nameIn buffer = name := by
  rw [nameIn_eq_iff (by omega), nameIn_eq_iff (by omega)]
  unfold kStrncpy
  rw [if_pos (by omega)]
  constructor
  · rintro ⟨hbytes, hstop⟩
    have hsame : ∀ i, ∀ h : i < name.length, buffer i = name[i] ∧ name[i] ≠ 0 := by
      intro i hi
      obtain ⟨hbyte, hne⟩ := hbytes i hi
      rw [if_pos (by omega)] at hbyte
      by_cases hcopied : ∀ j ≤ i, buffer j ≠ 0
      · rw [if_pos hcopied] at hbyte
        exact ⟨hbyte, hne⟩
      · rw [if_neg hcopied] at hbyte
        exact absurd hbyte.symm hne
    refine ⟨hsame, ?_⟩
    by_contra hnonzero
    have hcopied : ∀ j ≤ name.length, buffer j ≠ 0 := by
      intro j hj
      rcases hj.eq_or_lt with rfl | hlt
      · exact hnonzero
      · exact (hsame j hlt).1 ▸ (hsame j hlt).2
    rw [if_pos hcopied] at hstop
    exact hnonzero hstop
  · rintro ⟨hbytes, hstop⟩
    have hpass : ∀ j < name.length, buffer j ≠ 0 := fun j hj => (hbytes j hj).1 ▸ (hbytes j hj).2
    refine ⟨fun i hi => ?_, ?_⟩
    · rw [if_pos (by omega), if_pos fun j hj => hpass j (by omega)]
      exact hbytes i hi
    · split_ifs
      · exact hstop
      · rfl

theorem takeWhile_append_stop {α : Type*} {p : α → Bool} (l : List α) {x : α} (hx : p x = false)
    (rest : List α) : (l ++ x :: rest).takeWhile p = l.takeWhile p := by
  induction l with
  | nil => simp [hx]
  | cons y l ih => simp only [List.cons_append, List.takeWhile_cons, ih]

/-- A stored string with its NUL is read back up to its first NUL. -/
theorem nameIn_storeBytes (dest : Bytes) {name : List (BitVec 8)} (hlen : name.length < 256) :
    nameIn (storeBytes dest 0 (name ++ [0])) = name.takeWhile (· ≠ 0) := by
  have hstored := bytesAt_storeBytes dest 0 (name ++ [0])
  have hsplit : (List.range 256).map (storeBytes dest 0 (name ++ [0])) =
      (name ++ [0]) ++ ((List.range (255 - name.length)).map fun i =>
        storeBytes dest 0 (name ++ [0]) (name.length + 1 + i)) := by
    rw [show 256 = name.length + 1 + (255 - name.length) by omega, List.range_add,
      List.map_append, List.map_map]
    congr 1
    apply List.ext_getElem (by simp)
    intro i hi hi'
    rw [List.getElem_map, List.getElem_range, ← hstored i hi', Nat.zero_add]
  unfold nameIn
  rw [hsplit, List.append_assoc]
  exact takeWhile_append_stop _ (by simp) _

end Names

section Walks

variable {dir : DirEntry} {s : LfnState}

theorem lfnEntry_long (dir : DirEntry) (s : LfnState) :
    (lfnEntry dir s).map LfnState.long = longNext dir s.long := by
  have hstep : ∀ s : LfnState,
      (if s.active ∧ dir.checksum = s.expectedChecksum then
        (lfnStore dir.units dir.lfnPos s.buffer).map fun buffer => { s with buffer := buffer }
      else some s).map LfnState.long =
      match s.long with
      | none => some none
      | some (sum, buffer) =>
        if dir.checksum = sum then
          (lfnStore dir.units dir.lfnPos buffer).map fun buffer => some (sum, buffer)
        else some (some (sum, buffer)) := by
    rintro ⟨buffer, sum, active⟩
    cases active with
    | false => rfl
    | true =>
      by_cases hsum : dir.checksum = sum
      · simp [LfnState.long, hsum, Option.map_map, Function.comp_def]
      · simp [LfnState.long, hsum]
  unfold lfnEntry longNext
  by_cases hfirst : dir.order &&& 0x40 ≠ 0
  · rw [if_pos hfirst, if_pos hfirst]
    exact hstep _
  · rw [if_neg hfirst, if_neg hfirst]
    exact hstep s

/-- The name that a walk stores for a file is its full name, if that fits. -/
theorem nameIn_storedName_iff (dest : Bytes) (dir : DirEntry) (long : Option LongName)
    {name : List (BitVec 8)} (hlen : name.length ≤ 254) :
    nameIn (storedName dest dir long) = name ↔ fullName dir long = name := by
  have hfits : (shortName dir).length < 256 := by
    have hlength := length_shortName dir
    omega
  have hshort := nameIn_storeBytes dest hfits
  unfold storedName fullName
  cases long with
  | none => rw [hshort]
  | some long =>
    dsimp only
    by_cases hlong : lfnChecksum dir = long.1 ∧ long.2 0 ≠ 0
    · rw [if_pos hlong, if_pos hlong]
      exact nameIn_kStrncpy_iff dest hlen
    · rw [if_neg hlong, if_neg hlong, hshort]

/-- Both walks store the name in this way. -/
theorem storedName_long (dest : Bytes) (dir : DirEntry) (s : LfnState) :
    (if s.active ∧ lfnChecksum dir = s.expectedChecksum ∧ s.buffer 0 ≠ 0 then
        kStrncpy dest s.buffer 255
      else storeBytes dest 0 (shortName dir ++ [0])) = storedName dest dir s.long := by
  obtain ⟨buffer, sum, active⟩ := s
  cases active with
  | false => exact if_neg (by simp)
  | true =>
    change _ = if lfnChecksum dir = sum ∧ buffer 0 ≠ 0 then _ else _
    by_cases hlong : lfnChecksum dir = sum ∧ buffer 0 ≠ 0
    · rw [if_pos ⟨rfl, hlong⟩, if_pos hlong]
    · rw [if_neg fun h => hlong h.2, if_neg hlong]

/-- An entry in `fat32_readdir`. -/
theorem readdirEntry_event (index : Nat) (entry : FatDirent) (dir : DirEntry) (s : ReaddirState) :
    match dirEvent dir s.lfn.long with
    | .stop => readdirEntry index entry dir s = .done none
    | .skip long => ∃ lfn, lfn.long = long ∧
        readdirEntry index entry dir s = .next { s with lfn := lfn }
    | .file long =>
        if s.currentIndex = index then readdirEntry index entry dir s =
          .done (some ⟨dir.cluster, storedName entry.name dir long⟩)
        else ∃ lfn, lfn.long = none ∧ readdirEntry index entry dir s =
          .next ⟨wrap32 (s.currentIndex + 1), lfn⟩
    | .overrun => readdirEntry index entry dir s = .overrun := by
  unfold dirEvent readdirEntry
  by_cases hend : dir 0 = fat32EntryEnd
  · rw [if_pos hend, if_pos hend]
  rw [if_neg hend, if_neg hend]
  by_cases hdeleted : dir 0 = fat32EntryDeleted
  · rw [if_pos hdeleted, if_pos hdeleted]
    exact ⟨s.lfn, rfl, rfl⟩
  rw [if_neg hdeleted, if_neg hdeleted]
  by_cases hlfn : dir.attr = fat32AttrLfn
  · rw [if_pos hlfn, if_pos hlfn, ← lfnEntry_long]
    cases lfnEntry dir s.lfn with
    | none => rfl
    | some lfn => exact ⟨lfn, rfl, rfl⟩
  rw [if_neg hlfn, if_neg hlfn]
  dsimp only
  by_cases hvolume : dir.attr &&& fat32AttrVolumeId ≠ 0
  · rw [if_pos hvolume, if_pos hvolume]
    exact ⟨_, rfl, rfl⟩
  rw [if_neg hvolume, if_neg hvolume]
  dsimp only
  by_cases hindex : s.currentIndex = index
  · rw [if_pos hindex, if_pos hindex]
    have hcond : ((s.lfn.active && !(s.lfn.active && lfnChecksum dir ≠ s.lfn.expectedChecksum)) ∧
        s.lfn.buffer 0 ≠ 0) ↔ s.lfn.active ∧ lfnChecksum dir = s.lfn.expectedChecksum ∧
        s.lfn.buffer 0 ≠ 0 := by
      cases s.lfn.active <;> simp
    simp only [hcond, storedName_long]
  · rw [if_neg hindex, if_neg hindex]
    exact ⟨_, rfl, rfl⟩

/-- An entry in `fat32_finddir`. -/
theorem finddirEntry_event (fs : Fat32Volume) (name : List (BitVec 8)) (stack : Bytes) (dir : DirEntry) (s : LfnState) :
    match dirEvent dir s.long with
    | .stop => finddirEntry fs name stack dir s = .done none
    | .skip long => ∃ lfn : LfnState, lfn.long = long ∧
        finddirEntry fs name stack dir s = .next lfn
    | .file long =>
        if nameIn (storedName stack dir long) = name then
          finddirEntry fs name stack dir s = .done (some (fatChild fs name dir))
        else ∃ lfn : LfnState, lfn.long = none ∧ finddirEntry fs name stack dir s = .next lfn
    | .overrun => finddirEntry fs name stack dir s = .overrun := by
  unfold dirEvent finddirEntry
  by_cases hend : dir 0 = fat32EntryEnd
  · rw [if_pos hend, if_pos hend]
  rw [if_neg hend, if_neg hend]
  by_cases hdeleted : dir 0 = fat32EntryDeleted
  · rw [if_pos hdeleted, if_pos hdeleted]
    exact ⟨s, rfl, rfl⟩
  rw [if_neg hdeleted, if_neg hdeleted]
  by_cases hlfn : dir.attr = fat32AttrLfn
  · rw [if_pos hlfn, if_pos hlfn, ← lfnEntry_long]
    cases lfnEntry dir s with
    | none => rfl
    | some lfn => exact ⟨lfn, rfl, rfl⟩
  rw [if_neg hlfn, if_neg hlfn]
  by_cases hvolume : dir.attr &&& fat32AttrVolumeId ≠ 0
  · rw [if_pos hvolume, if_pos hvolume]
    exact ⟨_, rfl, rfl⟩
  rw [if_neg hvolume, if_neg hvolume]
  dsimp only
  simp only [storedName_long]
  by_cases hname : nameIn (storedName stack dir s.long) = name
  · rw [if_pos hname, if_pos hname]
  · rw [if_neg hname, if_neg hname]
    exact ⟨_, rfl, rfl⟩

/-- A scan that looks for a file of a listing: it delivers its answer, or comes to the end of
the listing. -/
def ReadsListing {σ α : Type} (answer : Option α) (stop : Scan (Option LongName) Unit)
    (x : Scan σ (Option α)) : Prop :=
  match answer with
  | some a => x = .done (some a)
  | none =>
    match stop with
    | .next _ => ∃ s, x = .next s
    | .done _ => x = .done none
    | .overrun => x = .overrun

/-- `fat32_readdir` reads the listing by position. -/
theorem readdir_listing {index : Nat} (hindex : index < 4294967296) (entry : FatDirent)
    (items : List (Option DirEntry)) {s : ReaddirState} (hle : s.currentIndex ≤ index) :
    ReadsListing ((listing items s.lfn.long)[index - s.currentIndex]?.map
        fun file => ⟨file.1.cluster, storedName entry.name file.1 file.2⟩)
      (listEnd items s.lfn.long) (scanList (itemStep (readdirEntry index entry)) items s) := by
  induction items generalizing s with
  | nil => exact ⟨s, rfl⟩
  | cons item items ih =>
    cases item with
    | none => rfl
    | some dir =>
      have hstep := readdirEntry_event index entry dir s
      rw [listEnd_cons, scanList_cons, itemStep, listing]
      cases hevent : dirEvent dir s.lfn.long with
      | stop =>
        rw [hevent] at hstep
        rw [hstep]
        rfl
      | skip long =>
        rw [hevent] at hstep
        obtain ⟨lfn, rfl, hnext⟩ := hstep
        rw [hnext]
        exact ih (s := { s with lfn := lfn }) hle
      | file long =>
        rw [hevent] at hstep
        dsimp only at hstep ⊢
        by_cases hfound : s.currentIndex = index
        · rw [if_pos hfound] at hstep
          rw [hstep, hfound, Nat.sub_self]
          rfl
        · rw [if_neg hfound] at hstep
          obtain ⟨lfn, hlong, hnext⟩ := hstep
          -- the counter cannot wrap below the index
          have hwrap : wrap32 (s.currentIndex + 1) = s.currentIndex + 1 :=
            Nat.mod_eq_of_lt (by omega)
          rw [hwrap] at hnext
          have hrest := ih (s := ⟨s.currentIndex + 1, lfn⟩) (by dsimp only; omega)
          dsimp only at hrest
          rw [hlong] at hrest
          rw [hnext, show index - s.currentIndex = index - (s.currentIndex + 1) + 1 by omega,
            List.getElem?_cons_succ]
          exact hrest
      | overrun =>
        rw [hevent] at hstep
        rw [hstep]
        rfl

/-- `fat32_finddir` reads the listing by name. -/
theorem finddir_listing (fs : Fat32Volume) (name : List (BitVec 8)) (stack : Bytes)
    (items : List (Option DirEntry)) {s : LfnState} :
    ReadsListing (((listing items s.long).find? fun file =>
        nameIn (storedName stack file.1 file.2) = name).map fun file => fatChild fs name file.1)
      (listEnd items s.long) (scanList (itemStep (finddirEntry fs name stack)) items s) := by
  induction items generalizing s with
  | nil => exact ⟨s, rfl⟩
  | cons item items ih =>
    cases item with
    | none => rfl
    | some dir =>
      have hstep := finddirEntry_event fs name stack dir s
      rw [listEnd_cons, scanList_cons, itemStep, listing]
      cases hevent : dirEvent dir s.long with
      | stop =>
        rw [hevent] at hstep
        rw [hstep]
        rfl
      | skip long =>
        rw [hevent] at hstep
        obtain ⟨lfn, rfl, hnext⟩ := hstep
        rw [hnext]
        exact ih
      | file long =>
        rw [hevent] at hstep
        dsimp only at hstep ⊢
        by_cases hfound : nameIn (storedName stack dir long) = name
        · rw [if_pos hfound] at hstep
          rw [hstep, List.find?_cons_of_pos (by simpa using hfound)]
          rfl
        · rw [if_neg hfound] at hstep
          obtain ⟨lfn, hlong, hnext⟩ := hstep
          have hrest := ih (s := lfn)
          rw [hlong] at hrest
          rw [hnext, List.find?_cons_of_neg (by simpa using hfound)]
          exact hrest
      | overrun =>
        rw [hevent] at hstep
        rw [hstep]
        rfl

theorem length_listing_le (items : List (Option DirEntry)) (long : Option LongName) :
    (listing items long).length ≤ items.length := by
  induction items generalizing long with
  | nil => exact Nat.zero_le _
  | cons item items ih =>
    cases item with
    | none => exact Nat.zero_le _
    | some dir =>
      rw [listing, List.length_cons]
      cases dirEvent dir long with
      | stop => exact Nat.zero_le _
      | skip long => exact (ih long).trans (Nat.le_succ _)
      | file long => exact Nat.succ_le_succ (ih none)
      | overrun => exact Nat.zero_le _

end Walks

section Agree

variable {disk : Disk} {v : Fat32Volume} {start : Nat} {cache : FatCache}

/-- A walk over a directory whose chain ends answers from the listing, as long as no long name
leaves its buffer before. -/
theorem walk_reads {σ α : Type} {step : DirEntry → σ → Scan σ (Option α)} {s : σ}
    {clusters : Nat} {entries : List DirEntry} (h : v.Listed disk start cache clusters entries)
    {rounds : Nat} (hrounds : clusters < rounds) {answer : Option α}
    {stop : Scan (Option LongName) Unit} (hfit : answer = none → stop ≠ .overrun)
    (hreads : ReadsListing answer stop (scanList (itemStep step) (entries.map some) s)) :
    ∃ cache', (v.walk disk step rounds start cache s).result = .done answer cache' := by
  obtain ⟨cache', hwalk⟩ : ∃ cache', (v.walk disk step rounds start cache s).result =
      FatResult.ofScan cache' (scanList step entries s) := walk_listed h hrounds
  rw [scanList_map_some] at hreads
  refine ⟨cache', hwalk.trans ?_⟩
  unfold ReadsListing at hreads
  cases answer with
  | some a =>
    rw [hreads]
    rfl
  | none =>
    cases stop with
    | next long =>
      obtain ⟨s', hnext⟩ := hreads
      rw [hnext]
      rfl
    | done u =>
      rw [hreads]
      rfl
    | overrun => exact absurd rfl (hfit rfl)

/-- `fat32_readdir` at an index fills in an entry with a name and a number. -/
def FatNode.Lists (disk : Disk) (node : FatNode) (cache : FatCache) (rounds index : Nat)
    (name : List (BitVec 8)) (ino : Nat) : Prop :=
  ∀ entry : FatDirent, ∃ d cache',
    (node.readdir disk index entry rounds cache).result = .done (some d) cache' ∧
      nameIn d.name = name ∧ d.ino = ino

/-- `fat32_finddir` returns a node, or null. -/
def FatNode.Finds (disk : Disk) (node : FatNode) (cache : FatCache) (rounds : Nat)
    (name : List (BitVec 8)) (child : Option FatNode) : Prop :=
  ∀ stack : Bytes × Bytes, ∃ cache',
    (node.finddir disk name stack rounds cache).result = .done child cache'

variable {node : FatNode} {clusters rounds : Nat} {entries : List DirEntry}
  {name : List (BitVec 8)}

/-- An index lists the file at its place in the listing, and nothing else. -/
theorem lists_iff (hnode : node.volume = some (v, start))
    (h : v.Listed disk start cache clusters entries) (hrounds : clusters < rounds) {index : Nat}
    (hfit : (listing (entries.map some) none)[index]? = none →
      listEnd (entries.map some) none ≠ .overrun)
    (hindex : index < 4294967296) (hlen : name.length ≤ 254) {ino : Nat} :
    node.Lists disk cache rounds index name ino ↔ ∃ file,
      (listing (entries.map some) none)[index]? = some file ∧ fullName file.1 file.2 = name ∧
        file.1.cluster = ino := by
  have hwalk : ∀ entry : FatDirent, ∃ cache',
      (v.walk disk (readdirEntry index entry) rounds start cache ⟨0, .start fun _ => 0⟩).result =
        .done ((listing (entries.map some) none)[index]?.map fun file =>
          ⟨file.1.cluster, storedName entry.name file.1 file.2⟩) cache' := fun entry =>
    walk_reads h hrounds (fun hnone => hfit (Option.map_eq_none_iff.mp hnone))
      (readdir_listing hindex entry (entries.map some) (s := ⟨0, .start fun _ => 0⟩)
        (Nat.zero_le _))
  unfold FatNode.Lists FatNode.readdir
  rw [hnode]
  dsimp only
  constructor
  · intro hlists
    obtain ⟨d, cache', hd, hname, hino⟩ := hlists ⟨0, fun _ => 0⟩
    obtain ⟨cache'', ha⟩ := hwalk ⟨0, fun _ => 0⟩
    rw [ha] at hd
    cases hfile : (listing (entries.map some) none)[index]? with
    | none =>
      rw [hfile] at hd
      cases hd
    | some file =>
      rw [hfile] at hd
      cases hd
      exact ⟨file, rfl, (nameIn_storedName_iff _ _ _ hlen).mp hname, hino⟩
  · rintro ⟨file, hfile, hname, hino⟩ entry
    obtain ⟨cache', ha⟩ := hwalk entry
    rw [hfile] at ha
    exact ⟨_, cache', ha, (nameIn_storedName_iff _ _ _ hlen).mpr hname, hino⟩

/-- A lookup finds the first file under a name. -/
theorem finds_listing (hnode : node.volume = some (v, start))
    (h : v.Listed disk start cache clusters entries) (hrounds : clusters < rounds)
    (hfit : (listing (entries.map some) none).find? (fun file => fullName file.1 file.2 = name) =
      none → listEnd (entries.map some) none ≠ .overrun)
    (hlen : name.length ≤ 254) :
    node.Finds disk cache rounds name
      (((listing (entries.map some) none).find? fun file => fullName file.1 file.2 = name).map
        fun file => fatChild v name file.1) := by
  intro stack
  have hreads := finddir_listing v name stack.2 (entries.map some) (s := .start stack.1)
  simp only [nameIn_storedName_iff stack.2 _ _ hlen] at hreads
  unfold FatNode.finddir
  rw [hnode]
  exact walk_reads h hrounds (fun hnone => hfit (Option.map_eq_none_iff.mp hnone)) hreads

/-- The first index that lists a name shows the start cluster of the node that a lookup of the
name returns, and a lookup of a name that no index lists returns null. -/
theorem listing_and_lookup_agree (hnode : node.volume = some (v, start))
    (h : FatDirectory disk v start cache clusters entries)
    (hfit : listEnd (entries.map some) none ≠ .overrun) (hrounds : clusters < rounds)
    (hlen : name.length ≤ 254) :
    (∀ i < 4294967296, ∀ ino, node.Lists disk cache rounds i name ino →
        (∀ j < i, ∀ ino', ¬node.Lists disk cache rounds j name ino') →
        ∃ child, node.Finds disk cache rounds name (some child) ∧
          child.volume = some (v, ino)) ∧
      ((∀ i < 4294967296, ∀ ino, ¬node.Lists disk cache rounds i name ino) →
        node.Finds disk cache rounds name none) := by
  have hfind := finds_listing hnode h.toListed hrounds (fun _ => hfit) hlen
  have hlists : ∀ i < 4294967296, ∀ ino, node.Lists disk cache rounds i name ino ↔ ∃ file,
      (listing (entries.map some) none)[i]? = some file ∧ fullName file.1 file.2 = name ∧
        file.1.cluster = ino := fun i hi ino =>
    lists_iff hnode h.toListed hrounds (fun _ => hfit) hi hlen
  constructor
  · intro i hi ino hino hfirst
    obtain ⟨file, hfile, hname, rfl⟩ := (hlists i hi ino).mp hino
    obtain ⟨hlt, hget⟩ := List.getElem?_eq_some_iff.mp hfile
    have hfound : (listing (entries.map some) none).find?
        (fun file => fullName file.1 file.2 = name) = some file := by
      refine List.find?_eq_some_iff_getElem.mpr ⟨by simpa using hname, i, hlt, hget, fun j hj => ?_⟩
      simp only [Bool.not_eq_true', decide_eq_false_iff_not]
      exact fun hother => hfirst j hj _ ((hlists j (hj.trans hi) _).mpr
        ⟨_, List.getElem?_eq_getElem (hj.trans hlt), hother, rfl⟩)
    rw [hfound] at hfind
    exact ⟨_, hfind, rfl⟩
  · intro hnone
    have hfound : (listing (entries.map some) none).find?
        (fun file => fullName file.1 file.2 = name) = none := by
      rw [List.find?_eq_none]
      intro file hmem hname
      obtain ⟨i, hi, rfl⟩ := List.getElem_of_mem hmem
      have hfits := h.length_le
      have hcount := length_listing_le (entries.map some) none
      rw [List.length_map] at hcount
      exact hnone i (by omega) _ ((hlists i (by omega) _).mpr
        ⟨_, List.getElem?_eq_getElem hi, by simpa using hname, rfl⟩)
    rw [hfound] at hfind
    exact hfind

end Agree

/-- A disk with a FAT of one sector and a directory of one sector, each given by its bytes. -/
def smallDisk (fat : List (BitVec 32)) (entries : List (List (BitVec 8))) : Disk := fun lba =>
  some (if lba = 2 then storeRow (fun _ => 0) 0 fat
    else fun x => if lba = 3 then (entries.getD (x / 32) []).getD (x % 32) 0 else 0)

/-- Its volume: one sector for a cluster, and the root directory in cluster 2. -/
def smallVolume : Fat32Volume where
  partitionLba := 1
  sectorsPerCluster := 1
  rootCluster := 2
  firstDataSector := 2
  fat1Lba := 2

/-- The FAT of a root directory of one cluster. -/
def rootFat : List (BitVec 32) := [0, 0, 0x0FFFFFFF]

/-- The entries of the directory of a small disk. -/
def smallEntry (entries : List (List (BitVec 8))) (i : Nat) : DirEntry := fun k =>
  (entries.getD ((i * 32 + k) / 32) []).getD ((i * 32 + k) % 32) 0

theorem smallDirectory (entries : List (List (BitVec 8))) :
    FatDirectory (smallDisk rootFat entries) smallVolume 2 .boot 1
      ((List.range 16).map (smallEntry entries)) where
  live i hi := by
    obtain rfl : i = 0 := by omega
    change 2 < fat32Eof
    decide
  last := by
    change _ ≤ (smallVolume.nextCluster (smallDisk rootFat []) 2 .boot).1
    decide +kernel
  items := by
    have hlba : smallVolume.clusterToLba 2 = 3 := by decide
    rw [chainItems_succ, chainItems_zero, List.append_nil]
    unfold Fat32Volume.clusterItems
    rw [hlba]
    change sectorItems (smallDisk rootFat entries) 3 ++ [] = _
    rw [List.append_nil, List.map_map]
    change (sectorEntries _).map some = _
    unfold sectorEntries
    rw [List.map_map]
    rfl
  cached := FatCache.boot_valid _
  volume := by
    refine ⟨1, ⟨by decide, by decide, by decide⟩, fun i hi => ?_⟩
    obtain rfl : i = 0 := by omega
    exact ⟨Nat.le_refl 2, Nat.lt_succ_self 2⟩

/-- The bytes of a long-name entry. -/
def lfnBytes (order sum : BitVec 8) (units : List (BitVec 16)) : List (BitVec 8) :=
  let bytes := units.flatMap fun u : BitVec 16 => [u.setWidth 8, (u >>> 8).setWidth 8]
  [order] ++ bytes.take 10 ++ [0x0F, 0, sum] ++ (bytes.drop 10).take 12 ++ [0, 0] ++ bytes.drop 22

/-- The bytes of the entry of an empty file. -/
def fileBytes (name : List (BitVec 8)) (cluster : BitVec 8) : List (BitVec 8) :=
  name ++ [0x20] ++ List.replicate 14 0 ++ [cluster, 0, 0, 0, 0, 0]

/-- The short name `A`. -/
def shortA : List (BitVec 8) := 0x41 :: List.replicate 10 0x20

/-- A directory with one file. -/
theorem listing_and_lookup_agree_small :
    (∀ i < 4294967296, ∀ ino,
        smallVolume.root.Lists (smallDisk rootFat [fileBytes shortA 5]) .boot 2 i [0x41] ino →
        (∀ j < i, ∀ ino', ¬smallVolume.root.Lists (smallDisk rootFat [fileBytes shortA 5]) .boot 2
          j [0x41] ino') →
        ∃ child, smallVolume.root.Finds (smallDisk rootFat [fileBytes shortA 5]) .boot 2 [0x41]
          (some child) ∧ child.volume = some (smallVolume, ino)) ∧
      ((∀ i < 4294967296, ∀ ino,
          ¬smallVolume.root.Lists (smallDisk rootFat [fileBytes shortA 5]) .boot 2 i [0x41] ino) →
        smallVolume.root.Finds (smallDisk rootFat [fileBytes shortA 5]) .boot 2 [0x41] none) := by
  have hend : listEnd (((List.range 16).map (smallEntry [fileBytes shortA 5])).map some) none =
      .done () := by rfl
  have hfit : listEnd (((List.range 16).map (smallEntry [fileBytes shortA 5])).map some) none ≠
      .overrun := by
    rw [hend]
    rintro ⟨⟩
  exact listing_and_lookup_agree rfl (smallDirectory _) hfit (by decide) (by decide)

end EnclaveOS
