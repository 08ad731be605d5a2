import EnclaveOS.Foundation.Overlay
import EnclaveOS.Process.ForkIsolation
import EnclaveOS.Process.SpaceSteps

/-!
# ElfContents - the memory image of a loaded file

What a process reads at the addresses of its segments after `elf_load`.  The pages of a
segment are mapped and cleared before its bytes are copied.  A segment that begins in the last page
of an earlier one gives that page a new frame, and the bytes that were there are lost.
-/

namespace EnclaveOS

open PageWord RefCount

/-- The byte at an offset of a frame. -/
def frameByte (m : Machine) (frame offset : Nat) : BitVec 8 :=
  byteOf (m.mem frame (offset / 4)) (offset % 4)

theorem byteOf_zero (index : Nat) : byteOf 0#32 index = 0#8 := by
  simp [byteOf]

theorem byteOf_setByte_of_ne (w : Word) (b : BitVec 8) {index other : Nat} (hother : other < 4)
    (hne : other ≠ index) : byteOf (setByte w index b) other = byteOf w other := by
  apply BitVec.eq_of_getLsbD_eq
  intro i hi
  have hmask : ∀ k, 8 ≤ k → (0xFF#32).getLsbD k = false := by
    intro k hk
    by_cases hk' : k < 32
    · have hhigh : ∀ k < 32, 8 ≤ k → (0xFF#32).getLsbD k = false := by decide
      exact hhigh k hk' hk
    · exact BitVec.getLsbD_of_ge _ _ (by omega)
  simp only [byteOf, setByte, BitVec.getLsbD_setWidth, BitVec.getLsbD_ushiftRight,
    BitVec.getLsbD_or, BitVec.getLsbD_and, BitVec.getLsbD_not, BitVec.getLsbD_shiftLeft]
  have hlow : 8 * other + i < 32 := by omega
  -- the byte lies below the one that is set, or above it
  rcases Nat.lt_or_gt_of_ne hne with hlt | hgt
  · have hbelow : 8 * other + i < 8 * index := by omega
    simp [hi, hlow, hbelow]
  · have habove : ¬8 * other + i < 8 * index := by omega
    have hfar : 8 ≤ 8 * other + i - 8 * index := by omega
    simp [hi, hlow, habove, hmask _ hfar, hfar]

theorem frameByte_setWord (m : Machine) (frame x o : Nat) (b : BitVec 8) :
    frameByte (m.setWord frame (x / 4) (setByte (m.mem frame (x / 4)) (x % 4) b)) frame o =
      if o = x then b else frameByte m frame o := by
  have hx : x % 4 < 4 := Nat.mod_lt _ (by decide)
  have ho : o % 4 < 4 := Nat.mod_lt _ (by decide)
  unfold frameByte Machine.setWord
  simp only [Function.update_self]
  by_cases hword : o / 4 = x / 4
  · rw [hword, Function.update_self]
    by_cases hsame : o = x
    · rw [if_pos hsame, hsame, byteOf_setByte _ _ hx]
    · rw [if_neg hsame, byteOf_setByte_of_ne _ _ ho (by omega)]
  · have hne : o ≠ x := by
      rintro rfl
      exact hword rfl
    rw [Function.update_of_ne hword, if_neg hne]

/-- The bytes of a frame after a store. -/
theorem frameByte_storeBytes (m : Machine) (frame offset o : Nat) (bytes : List (BitVec 8)) :
    frameByte (m.storeBytes frame offset bytes) frame o =
      if offset ≤ o ∧ o < offset + bytes.length then bytes.getD (o - offset) 0#8
      else frameByte m frame o := by
  induction bytes generalizing m offset with
  | nil =>
    rw [Machine.storeBytes, if_neg]
    simp only [List.length_nil]
    omega
  | cons b rest ih =>
    rw [Machine.storeBytes, ih, frameByte_setWord]
    rcases Nat.lt_trichotomy o offset with hlt | rfl | hgt
    · rw [if_neg (by omega), if_neg (by omega), if_neg (by omega)]
    · rw [if_neg (by omega), if_pos rfl, if_pos (by simp), Nat.sub_self, List.getD_cons_zero]
    · have hnext : o - offset = o - (offset + 1) + 1 := by omega
      rw [if_neg (by omega : ¬o = offset), hnext, List.getD_cons_succ, List.length_cons]
      by_cases hin : o < offset + 1 + rest.length
      · rw [if_pos ⟨by omega, hin⟩, if_pos ⟨by omega, by omega⟩]
      · rw [if_neg (by omega), if_neg (by omega)]

/-- What a process has at a user address: whether it may write there, and the byte that it reads. -/
def userView (m : Machine) (pd addr : Nat) : Option (Bool × BitVec 8) :=
  (siteEntry m (pd, dirIndex addr, tableIndex addr)).map fun w =>
    (hasFlag w pageWrite, frameByte m (frameOf w) (addr % 4096))

theorem userView_congr {m m' : Machine} {pd addr : Nat}
    (hentry : siteEntry m' (pd, dirIndex addr, tableIndex addr) =
      siteEntry m (pd, dirIndex addr, tableIndex addr))
    (hdata : ∀ w, siteEntry m (pd, dirIndex addr, tableIndex addr) = some w →
      m'.mem (frameOf w) = m.mem (frameOf w)) : userView m' pd addr = userView m pd addr := by
  unfold userView frameByte
  rw [hentry]
  cases hw : siteEntry m (pd, dirIndex addr, tableIndex addr) with
  | none => rfl
  | some w => simp only [Option.map_some, hdata w hw]

/-- The contents of a file: a read of as many bytes as were asked for gives those of the file. -/
structure VfsFile.Holds (file : VfsFile) (bytes : List (BitVec 8)) : Prop where
  size : bytes.length < 4294967296
  slice : ∀ offset count, 0 < count → (file.read offset count).1 = count →
    offset + count ≤ bytes.length ∧ (file.read offset count).2 = (bytes.drop offset).take count

/-- The byte of a segment at an address: the file byte in front of `p_filesz`, 0 behind. -/
def Elf32Phdr.byteAt (h : Elf32Phdr) (bytes : List (BitVec 8)) (a : Nat) : BitVec 8 :=
  if h.pVaddr ≤ a ∧ a < h.pVaddr + h.copySize then bytes.getD (h.pOffset + (a - h.pVaddr)) 0#8
  else 0#8

/-- The segment has the page of an address. -/
def Elf32Phdr.HasPage (h : Elf32Phdr) (a : Nat) : Prop := pageDown a ∈ h.pages

instance (h : Elf32Phdr) (a : Nat) : Decidable (h.HasPage a) :=
  inferInstanceAs (Decidable (pageDown a ∈ h.pages))

/-- What a segment puts at an address of its pages. -/
def Elf32Phdr.view (bytes : List (BitVec 8)) (h : Elf32Phdr) (a : Nat) : Option (Bool × BitVec 8) :=
  some (hasFlag h.pFlags pfW, h.byteAt bytes a)

namespace ElfInv

variable {m₀ : Machine} {own₀ own : Nat → Owner} {pds : Finset Nat} {pd : Nat} {s : ElfState}
  {file : VfsFile} {bytes : List (BitVec 8)}

/-- The addresses of a page share their indices. -/
theorem index_eq_iff {a addr : Nat} (haligned : addr % 4096 = 0) :
    (pd, dirIndex a, tableIndex a) = (pd, dirIndex addr, tableIndex addr) ↔ pageDown a = addr := by
  have hpage := page_eq a
  have hpage' := page_eq addr
  rw [pageDown_eq_self haligned] at hpage'
  constructor
  · intro hsame
    obtain ⟨hdir, htable⟩ := Prod.mk.inj (Prod.mk.inj hsame).2
    rw [← hpage, hdir, htable, hpage']
  · rintro rfl
    have hdir : dirIndex (pageDown a) = dirIndex a := by
      unfold dirIndex pageDown
      omega
    have htable : tableIndex (pageDown a) = tableIndex a := by
      unfold tableIndex pageDown
      omega
    rw [hdir, htable]

/-- One page of the mapping loop is mapped and cleared, the other addresses stay. -/
theorem mapPage_view (h : ElfInv m₀ own₀ pds pd s own) (hpd : pd ∈ pds) {flags : Word} {addr : Nat}
    (haddr : addr < kernelSpaceStart) (haligned : addr % 4096 = 0) (hflags : MapFlags flags)
    (hok : (elfMapPage pd flags s addr).2 = .ok) {a : Nat} (ha : a < kernelSpaceStart) :
    userView (elfMapPage pd flags s addr).1.machine pd a =
      if pageDown a = addr then some (hasFlag flags pageWrite, 0#8)
      else userView s.machine pd a := by
  have hi := (dirIndex_lt_768_iff addr).mpr haddr
  have hsite : (pd, dirIndex a, tableIndex a) ∈ userSites pds := index_mem_userSites hpd ha
  rcases h.inv.elfMapPage hpd haddr hflags fun w hw =>
      (h.traced _ hi _ (tableIndex_lt addr) w hw).1 with
    ⟨m', own', l, hres, -⟩ | ⟨m', own', n, hres, hmax, hwritten, hclear⟩
  · rw [hres] at hok
    cases hok
  rw [hres]
  dsimp only
  by_cases hpage : pageDown a = addr
  · rw [if_pos hpage]
    have hentry := hwritten.entries _ hsite
    rw [(index_eq_iff haligned).mpr hpage, Function.update_self, if_pos (hflags.mapped n)] at hentry
    unfold userView frameByte
    rw [(index_eq_iff haligned).mpr hpage, hentry, Option.map_some, hflags.frame hmax, hclear,
      byteOf_zero, hasFlag_or, hasFlag_frameAddr hmax (show IsLow pageWrite by decide),
      Bool.false_or]
  · rw [if_neg hpage]
    have hentry := hwritten.entries _ hsite
    rw [Function.update_of_ne (mt (index_eq_iff haligned).mp hpage)] at hentry
    exact userView_congr hentry fun w hw => hwritten.data _ (Or.inr (h.inv.page _ hsite w hw))

/-- The mapping loop. -/
theorem mapPages_view (h : ElfInv m₀ own₀ pds pd s own) (hpd : pd ∈ pds) {flags : Word}
    (hflags : MapFlags flags) {pages : List Nat}
    (hpages : ∀ a ∈ pages, a < kernelSpaceStart ∧ a % 4096 = 0)
    (hok : (elfMapPages pd flags pages s).2 = .ok) {a : Nat} (ha : a < kernelSpaceStart) :
    userView (elfMapPages pd flags pages s).1.machine pd a =
      if pageDown a ∈ pages then some (hasFlag flags pageWrite, 0#8)
      else userView s.machine pd a := by
  induction pages generalizing s own with
  | nil => simp [elfMapPages]
  | cons addr rest ih =>
    obtain ⟨haddr, haligned⟩ := hpages addr List.mem_cons_self
    obtain ⟨-, own₁, h₁⟩ := h.mapPage hpd haddr haligned hflags
    have hview := h.mapPage_view hpd haddr haligned hflags
    rw [elfMapPages] at hok ⊢
    generalize elfMapPage pd flags s addr = res at hok h₁ hview ⊢
    obtain ⟨s', status⟩ := res
    cases status
    · rw [ih h₁ (fun a ha => hpages a (List.mem_cons_of_mem _ ha)) hok, hview rfl ha]
      by_cases hrest : pageDown a ∈ rest
      · rw [if_pos hrest, if_pos (List.mem_cons_of_mem _ hrest)]
      · simp [hrest]
    · cases hok
    · cases hok

/-- The pages of a segment. -/
theorem prepare_view (h : ElfInv m₀ own₀ pds pd s own) (hpd : pd ∈ pds) (ph : Elf32Phdr)
    (hok : (elfPrepare pd ph s).2 = .ok) {a : Nat} (ha : a < kernelSpaceStart) :
    userView (elfPrepare pd ph s).1.machine pd a =
      if pageDown a ∈ ph.pages then some (hasFlag ph.pFlags pfW, 0#8)
      else userView s.machine pd a := by
  have hcases := vmaAdd_cases s.vmaHead ph.pVaddr ph.memEnd ph.vmaFlags s.kmallocs
  have hwrite : hasFlag ph.pteFlags pageWrite = hasFlag ph.pFlags pfW := by
    unfold Elf32Phdr.pteFlags
    split_ifs with hw
    · rw [hw]
      decide
    · rw [Bool.not_eq_true _ |>.mp hw]
      decide
  unfold elfPrepare at hok ⊢
  generalize vmaAdd s.vmaHead ph.pVaddr ph.memEnd ph.vmaFlags s.kmallocs = res at hcases hok ⊢
  obtain ⟨vmas, ret, k⟩ := res
  dsimp only at hcases hok ⊢
  rcases hcases with ⟨-, hret⟩ | ⟨-, hend, -, hret⟩
  · rw [if_pos (by omega)] at hok
    cases hok
  · rw [if_neg (by omega)] at hok ⊢
    rw [(h.setVmas vmas k).mapPages_view hpd (mapFlags_segment ph) (fun a => pages_lt hend) hok ha,
      hwrite]

/-- A chunk changes the bytes at its own addresses only. -/
theorem storeChunk_view (h : ElfInv m₀ own₀ pds pd s own) (hpd : pd ∈ pds) {dest : Nat}
    (hdest : dest < kernelSpaceStart) (hmapped : MappedAt s.machine pd dest)
    (chunk : List (BitVec 8)) (hfit : dest % 4096 + chunk.length ≤ 4096) {a : Nat}
    (ha : a < kernelSpaceStart) :
    userView (s.machine.storeBytes
        (frameOf (s.machine.pteAt pd (dirIndex dest) (tableIndex dest))) (dest % 4096) chunk) pd a =
      if dest ≤ a ∧ a < dest + chunk.length then
        (userView s.machine pd a).map fun v => (v.1, chunk.getD (a - dest) 0#8)
      else userView s.machine pd a := by
  have hsite : (pd, dirIndex a, tableIndex a) ∈ userSites pds := index_mem_userSites hpd ha
  have hentry : siteEntry s.machine (pd, dirIndex dest, tableIndex dest) =
      some (s.machine.pteAt pd (dirIndex dest) (tableIndex dest)) :=
    siteEntry_eq_some.mpr ⟨hmapped.1, hmapped.2, rfl⟩
  obtain ⟨hentries, hdata⟩ :=
    h.storeChunk_sites hpd hdest hmapped (dest % 4096) chunk hsite
  by_cases hsame : (pd, dirIndex a, tableIndex a) = (pd, dirIndex dest, tableIndex dest)
  · have hpages : pageDown a = pageDown dest := by
      obtain ⟨hdir, htable⟩ := Prod.mk.inj (Prod.mk.inj hsame).2
      rw [← page_eq a, ← page_eq dest, hdir, htable]
    unfold userView
    rw [hentries, hsame, hentry, Option.map_some, Option.map_some, frameByte_storeBytes]
    unfold pageDown at hpages
    have hoffset : a % 4096 - dest % 4096 = a - dest := by omega
    by_cases hin : dest ≤ a ∧ a < dest + chunk.length
    · rw [if_pos hin, if_pos (by omega), hoffset, Option.map_some]
    · rw [if_neg hin, if_neg (by omega)]
  · have hout : ¬(dest ≤ a ∧ a < dest + chunk.length) := by
      rintro ⟨hlow, hhigh⟩
      apply hsame
      have hdir : dirIndex a = dirIndex dest := by
        unfold dirIndex
        omega
      have htable : tableIndex a = tableIndex dest := by
        unfold tableIndex
        omega
      rw [hdir, htable]
    rw [if_neg hout]
    exact userView_congr hentries fun w hw => hdata hsame _ (siteFrame_of_entry hw)

/-- The copy loop of a segment puts the file bytes at its addresses. -/
theorem copyLoop_view (hfile : file.Holds bytes) (hpd : pd ∈ pds)
    {rounds dest offset count : Nat} (hrounds : count ≤ rounds)
    (hfit : dest + count ≤ kernelSpaceStart) (h : ElfInv m₀ own₀ pds pd s own)
    (hok : (elfCopyLoop file pd rounds dest offset count s).2 = .ok) {a : Nat}
    (ha : a < kernelSpaceStart) :
    ElfInv m₀ own₀ pds pd (elfCopyLoop file pd rounds dest offset count s).1 own ∧
      userView (elfCopyLoop file pd rounds dest offset count s).1.machine pd a =
        if dest ≤ a ∧ a < dest + count then
          (userView s.machine pd a).map fun v => (v.1, bytes.getD (offset + (a - dest)) 0#8)
        else userView s.machine pd a := by
  induction rounds generalizing dest offset count s with
  | zero =>
    refine ⟨h, ?_⟩
    rw [elfCopyLoop, if_neg (by omega)]
  | succ rounds ih =>
    obtain ⟨hchunk, hroom, hpos⟩ := ElfInv.elfChunk_le dest count
    have hround := elfCopyLoop_round file pd rounds dest offset count s
    generalize elfCopyLoop file pd (rounds + 1) dest offset count s = res at hround hok ⊢
    rcases hround with hzero | _ | _ | ⟨hcount, hmapped, hread⟩
    · rw [if_neg (by omega)]
      exact ⟨h, rfl⟩
    · cases hok
    · cases hok
    obtain ⟨hinside, hchunkBytes⟩ := hfile.slice offset (elfChunk dest count) (hpos hcount) hread
    generalize (file.read offset (elfChunk dest count)).2 = chunk at hchunkBytes hok ⊢
    have hlength : chunk.length = elfChunk dest count := by
      rw [hchunkBytes, List.length_take, List.length_drop]
      omega
    have hdest : dest < kernelSpaceStart := by omega
    have hsize := hfile.size
    have hsum : wrap32 (dest + elfChunk dest count) = dest + elfChunk dest count := by
      unfold wrap32 kernelSpaceStart at *
      omega
    have hoffset : wrap32 (offset + elfChunk dest count) = offset + elfChunk dest count := by
      unfold wrap32
      omega
    obtain ⟨-, h'⟩ := h.storeChunk hpd hdest hmapped chunk (by omega)
    have hview := h.storeChunk_view hpd hdest hmapped chunk (by omega) ha
    rw [hsum, hoffset] at hok ⊢
    obtain ⟨hinv, hrest⟩ := ih (by omega) (by omega) h' hok
    refine ⟨hinv, hrest.trans ?_⟩
    rw [hlength] at hview
    by_cases hlater : dest + elfChunk dest count ≤ a ∧
        a < dest + elfChunk dest count + (count - elfChunk dest count)
    · have hindex : offset + elfChunk dest count + (a - (dest + elfChunk dest count)) =
          offset + (a - dest) := by omega
      rw [if_neg (by omega)] at hview
      rw [if_pos hlater, if_pos (by omega), hindex]
      exact congrArg _ hview
    rw [if_neg hlater]
    refine hview.trans ?_
    by_cases hnow : dest ≤ a ∧ a < dest + elfChunk dest count
    · have hbyte : chunk.getD (a - dest) 0#8 = bytes.getD (offset + (a - dest)) 0#8 := by
        have hlt : a - dest < elfChunk dest count := by omega
        simp [hchunkBytes, List.getD_eq_getElem?_getD, hlt]
      rw [if_pos hnow, if_pos (by omega), hbyte]
    · rw [if_neg hnow, if_neg (by omega)]

/-- The bytes that are copied lie in the pages of their segment. -/
theorem mem_pages {ph : Elf32Phdr} (hspace : ph.pVaddr + ph.pMemsz ≤ kernelSpaceStart) {a : Nat}
    (hlow : ph.pVaddr ≤ a) (hhigh : a < ph.pVaddr + ph.pMemsz) : ph.HasPage a := by
  have hend : ph.memEnd = ph.pVaddr + ph.pMemsz := by
    unfold Elf32Phdr.memEnd wrap32 kernelSpaceStart at *
    omega
  have hup := pageUp_eq (hspace.trans kernelSpaceStart_le_lastPage)
  unfold pageDown at hup
  refine List.mem_map.mpr ⟨(pageDown a - pageDown ph.pVaddr) / 4096, List.mem_range.mpr ?_, ?_⟩
  · rw [hend, hup]
    unfold pageDown
    omega
  · unfold pageDown
    omega

/-- A segment that is loaded holds its bytes, and its pages nothing else. -/
theorem segment_view (hfile : file.Holds bytes) (hpd : pd ∈ pds) {ph : Elf32Phdr}
    (htype : ph.pType = ptLoad) (hspace : ph.pVaddr + ph.pMemsz ≤ kernelSpaceStart)
    (h : ElfInv m₀ own₀ pds pd s own) (hok : (elfSegment file pd ph s).2 = .ok) :
    ∃ own', ElfInv m₀ own₀ pds pd (elfSegment file pd ph s).1 own' ∧
      ∀ a < kernelSpaceStart, userView (elfSegment file pd ph s).1.machine pd a =
        if ph.HasPage a then ph.view bytes a else userView s.machine pd a := by
  have hcopy : ph.copySize ≤ ph.pMemsz := Nat.min_le_right _ _
  obtain ⟨-, -, own₁, h₁⟩ := h.prepare hpd ph
  have hview := @prepare_view _ _ _ _ _ _ h hpd ph
  unfold elfSegment at hok ⊢
  rw [if_neg (not_not.mpr htype)] at hok ⊢
  generalize elfPrepare pd ph s = res at h₁ hview hok ⊢
  obtain ⟨t, status⟩ := res
  cases status
  swap
  · cases hok
  swap
  · cases hok
  have hloop := @copyLoop_view _ _ _ _ _ _ _ _ hfile hpd _ _ ph.pOffset _ le_rfl
    (show ph.pVaddr + ph.copySize ≤ kernelSpaceStart by omega) h₁ hok
  refine ⟨own₁, (hloop (show 0 < kernelSpaceStart by decide)).1, fun a ha => ?_⟩
  refine (hloop ha).2.trans ?_
  dsimp only at hview
  rw [hview rfl ha]
  unfold Elf32Phdr.view Elf32Phdr.byteAt
  by_cases hin : ph.pVaddr ≤ a ∧ a < ph.pVaddr + ph.copySize
  · have hpage : ph.HasPage a := mem_pages hspace hin.1 (by omega)
    rw [if_pos hin, if_pos hin, if_pos hpage, if_pos (show pageDown a ∈ ph.pages from hpage),
      Option.map_some]
  · rw [if_neg hin, if_neg hin]
    rfl

/-- The segments are laid over what was there, one after another. -/
theorem segments_view (hfile : file.Holds bytes) (hpd : pd ∈ pds) {header : Elf32Header}
    {l : List Nat}
    (hspace : ∀ ph ∈ loadHeaders file header l, ph.pVaddr + ph.pMemsz ≤ kernelSpaceStart)
    (h : ElfInv m₀ own₀ pds pd s own) (hok : (elfSegments file pd header l s).2 = .ok) {a : Nat}
    (ha : a < kernelSpaceStart) :
    userView (elfSegments file pd header l s).1.machine pd a =
      overlay Elf32Phdr.HasPage (Elf32Phdr.view bytes) (loadHeaders file header l)
        (userView s.machine pd) a := by
  induction l generalizing s own with
  | nil => rfl
  | cons i rest ih =>
    rw [elfSegments] at hok ⊢
    cases hphdr : elfPhdr file header i with
    | none =>
      rw [hphdr] at hok
      cases hok
    | some ph =>
      rw [hphdr] at hok
      by_cases htype : ph.pType = ptLoad
      · have hcons : loadHeaders file header (i :: rest) = ph :: loadHeaders file header rest := by
          simp [loadHeaders, hphdr, htype]
        rw [hcons, List.forall_mem_cons] at hspace
        have hsegment := h.segment_view hfile hpd htype hspace.1
        dsimp only at hok ⊢
        rw [hcons, overlay_cons]
        generalize elfSegment file pd ph s = res at hsegment hok ⊢
        obtain ⟨s', status⟩ := res
        cases status
        swap
        · cases hok
        swap
        · cases hok
        obtain ⟨own₁, h₁, hview⟩ := hsegment rfl
        exact (ih hspace.2 h₁ hok).trans (overlay_congr (hview a ha))
      · have hskip : loadHeaders file header (i :: rest) = loadHeaders file header rest := by
          simp [loadHeaders, hphdr, htype]
        have hsegment : elfSegment file pd ph s = (s, .ok) := if_pos htype
        rw [hskip] at hspace ⊢
        dsimp only at hok ⊢
        rw [hsegment] at hok ⊢
        exact ih hspace h hok

end ElfInv

/-- The segments lie in user space, without an address in common. -/
structure ImageApart (segments : List Elf32Phdr) : Prop where
  inside : ∀ h ∈ segments, h.pVaddr + h.pMemsz ≤ kernelSpaceStart
  apart : segments.Pairwise fun h h' => ∀ a, h.Covers a → ¬h'.Covers a

/-- The process reads the bytes of a segment, and may write them when the segment is writable. -/
def SegmentHeld (m : Machine) (pd : Nat) (bytes : List (BitVec 8)) (h : Elf32Phdr) : Prop :=
  ∀ a, h.Covers a → ∃ writable, userView m pd a = some (writable, h.byteAt bytes a) ∧
    (hasFlag h.pFlags pfW = true → writable = true)

/-- Where a later segment has the page of an address, the earlier one has a zero there, and is
not writable alone. -/
def SharedPagesAgree (segments : List Elf32Phdr) (bytes : List (BitVec 8)) : Prop :=
  ∀ h ∈ segments, ∀ a, h.Covers a → ∀ last, lastOver Elf32Phdr.HasPage segments a = some last →
    last ≠ h →
    h.byteAt bytes a = 0#8 ∧ (hasFlag h.pFlags pfW = true → hasFlag last.pFlags pfW = true)

/-- Segments with an address in common are the same. -/
theorem ImageApart.eq {segments : List Elf32Phdr} (hapart : ImageApart segments)
    {h h' : Elf32Phdr} (hmem : h ∈ segments) (hmem' : h' ∈ segments) {a : Nat}
    (hcovers : h.Covers a) (hcovers' : h'.Covers a) : h = h' := by
  have hsymm : Std.Symm fun h h' : Elf32Phdr => ∀ a, h.Covers a → ¬h'.Covers a :=
    ⟨fun x y hxy b hb hb' => hxy b hb' hb⟩
  by_contra hne
  exact hapart.apart.forall hmem hmem' hne a hcovers hcovers'

/-- After a load, the last segment with the page of an address decides what is there. -/
theorem elfLoad_view {m : Machine} {pds : Finset Nat} {own : Nat → Owner} {pd : Nat}
    (h : VmInv m pds own) (hpd : pd ∈ pds) (hempty : ∀ i < 768, m.mem pd i = 0#32)
    {file : VfsFile} {bytes : List (BitVec 8)} (hfile : file.Holds bytes) {header : Elf32Header}
    (hheader : elfHeader file = some header) {k : Kmalloc} (hret : (elfLoad file pd m k).2.2 ≠ 0)
    (hinside : ∀ ph ∈ loadHeaders file header (List.range header.ePhnum),
      ph.pVaddr + ph.pMemsz ≤ kernelSpaceStart) {a : Nat} (ha : a < kernelSpaceStart)
    {last : Elf32Phdr}
    (hlast : lastOver Elf32Phdr.HasPage (loadHeaders file header (List.range header.ePhnum)) a =
      some last) : userView (elfLoad file pd m k).1.machine pd a = last.view bytes a := by
  have hview := @ElfInv.segments_view _ _ _ _ _ _ _ _ hfile hpd _ _ hinside
    (ElfInv.start h hempty k)
  unfold elfLoad at hret ⊢
  rw [hheader] at hret ⊢
  dsimp only at hret ⊢
  generalize elfSegments file pd header (List.range header.ePhnum) (.start m k) = res
    at hview hret ⊢
  obtain ⟨s, status⟩ := res
  cases status
  · exact (hview rfl ha).trans (overlay_of_last hlast)
  · exact absurd rfl hret
  · exact absurd rfl hret

/-- A load gives every segment its bytes exactly when the segments that share pages agree. -/
theorem elf_load_contents_iff {m : Machine} {pds : Finset Nat} {own : Nat → Owner} {pd : Nat}
    (h : VmInv m pds own) (hpd : pd ∈ pds) (hempty : ∀ i < 768, m.mem pd i = 0#32)
    {file : VfsFile} {bytes : List (BitVec 8)} (hfile : file.Holds bytes) {header : Elf32Header}
    (hheader : elfHeader file = some header) {k : Kmalloc} (hret : (elfLoad file pd m k).2.2 ≠ 0)
    (hapart : ImageApart (loadHeaders file header (List.range header.ePhnum))) :
    (∀ ph ∈ loadHeaders file header (List.range header.ePhnum),
        SegmentHeld (elfLoad file pd m k).1.machine pd bytes ph) ↔
      SharedPagesAgree (loadHeaders file header (List.range header.ePhnum)) bytes := by
  have hview := @elfLoad_view _ _ _ _ h hpd hempty _ _ hfile _ hheader _ hret hapart.inside
  constructor
  · intro hheld ph hph a hcovers last hlast hne
    have ha : a < kernelSpaceStart := hcovers.2.trans_le (hapart.inside ph hph)
    obtain ⟨writable, hbyte, hwrite⟩ := hheld ph hph a hcovers
    rw [hview ha hlast, Elf32Phdr.view, Option.some.injEq, Prod.mk.injEq] at hbyte
    obtain ⟨hlastWrite, hlastByte⟩ := hbyte
    constructor
    · rw [← hlastByte, Elf32Phdr.byteAt, if_neg]
      rintro ⟨hlow, hhigh⟩
      have hcopy : last.copySize ≤ last.pMemsz := Nat.min_le_right _ _
      exact hne (hapart.eq (lastOver_mem hlast) hph ⟨hlow, by omega⟩ hcovers)
    · rw [hlastWrite]
      exact hwrite
  · intro hagree ph hph a hcovers
    have ha : a < kernelSpaceStart := hcovers.2.trans_le (hapart.inside ph hph)
    obtain ⟨last, hlast⟩ := exists_lastOver hph
      (ElfInv.mem_pages (hapart.inside ph hph) hcovers.1 hcovers.2)
    by_cases hsame : last = ph
    · rw [← hsame]
      exact ⟨_, hview ha hlast, id⟩
    · obtain ⟨hzero, hwrite⟩ := hagree ph hph a hcovers last hlast hsame
      refine ⟨_, (hview ha hlast).trans ?_, hwrite⟩
      rw [Elf32Phdr.view, hzero, Elf32Phdr.byteAt, if_neg]
      rintro ⟨hlow, hhigh⟩
      have hcopy : last.copySize ≤ last.pMemsz := Nat.min_le_right _ _
      exact hsame (hapart.eq (lastOver_mem hlast) hph ⟨hlow, by omega⟩ hcovers)

/-- The contents of an executable with two segments of one byte, the second one at
`vaddr`. -/
def twoSegments (vaddr : Nat) : List (BitVec 8) :=
  leBytes 4 elfMagic ++ List.replicate 12 0#8 ++ leBytes 2 etExec ++ leBytes 2 em386 ++
    leBytes 4 1 ++ leBytes 4 0x08048000 ++ leBytes 4 52 ++ leBytes 8 0 ++ leBytes 2 52 ++
    leBytes 2 32 ++ leBytes 2 2 ++ leBytes 6 0 ++
  leBytes 4 ptLoad ++ leBytes 4 0 ++ leBytes 4 0x08048000 ++ leBytes 4 0x08048000 ++
    leBytes 4 1 ++ leBytes 4 1 ++ leBytes 4 6 ++ leBytes 4 4096 ++
  leBytes 4 ptLoad ++ leBytes 4 1 ++ leBytes 4 vaddr ++ leBytes 4 vaddr ++
    leBytes 4 1 ++ leBytes 4 1 ++ leBytes 4 6 ++ leBytes 4 4096

theorem holds_ofBytes {bytes : List (BitVec 8)} (hsize : bytes.length < 4294967296) :
    (VfsFile.ofBytes bytes).Holds bytes := by
  refine ⟨hsize, fun offset count hpos hfull => ⟨?_, rfl⟩⟩
  have hlength : ((bytes.drop offset).take count).length = count := Int.ofNat_inj.mp hfull
  rw [List.length_take, List.length_drop] at hlength
  omega

/-- A load into a new directory of the small machine. -/
theorem smallLoad_of_check {file : VfsFile} {check : Nat → ElfState × ElfStatus × Nat → Bool}
    (hrun : smallBoot.any fun s => match vmmCreateAddressSpace s.machine with
      | (_, none) => false
      | (m, some pd) => check pd (elfLoad file pd m [])) :
    ∃ m pds own pd, VmInv m pds own ∧ pd ∈ pds ∧ (∀ i < 768, m.mem pd i = 0#32) ∧
      check pd (elfLoad file pd m []) = true ∧ ∃ R, KernelHalf m own R := by
  obtain ⟨s, hs, hcheck⟩ := (Option.any_eq_true _ _).mp hrun
  obtain ⟨own, hboot⟩ := System.boot_inv (System.boot_small.trans hs)
  rcases hboot.sys.inv.vmmCreateAddressSpace with
    hnone | ⟨m, pd, own', hsome, -, hinv, hframe, hnew⟩
  · rw [hnone] at hcheck
    cases hcheck
  · rw [hsome] at hcheck
    exact ⟨m, _, own', pd, hinv, Finset.mem_insert_self _ _, hnew.empty, hcheck, _,
      hboot.sys.half.frame hboot.sys.inv.boot hframe⟩

/-- The ELF header of both files. -/
def twoHeader : Elf32Header := ⟨elfMagic, etExec, em386, 0x08048000, 52, 32, 2⟩

/-- A segment of one byte. -/
def byteSegment (offset vaddr : Nat) : Elf32Phdr := ⟨ptLoad, offset, vaddr, 1, 1, 6#32⟩

deriving instance DecidableEq for Elf32Header, Elf32Phdr

theorem byteSegment_covers {offset vaddr a : Nat} :
    (byteSegment offset vaddr).Covers a ↔ a = vaddr := by
  change vaddr ≤ a ∧ a < vaddr + 1 ↔ a = vaddr
  omega

theorem byteSegments_apart {vaddr : Nat} (hlow : 0x08048000 < vaddr)
    (hhigh : vaddr < kernelSpaceStart) :
    ImageApart [byteSegment 0 0x08048000, byteSegment 1 vaddr] := by
  constructor
  · simp only [List.forall_mem_cons, List.not_mem_nil, false_implies, implies_true, and_true]
    exact ⟨by decide, hhigh⟩
  · refine List.pairwise_pair.mpr fun a hfirst hsecond => ?_
    rw [byteSegment_covers] at hfirst hsecond
    omega

/-- The byte of the first segment is lost when the second one lies in its page. -/
theorem shared_page_loses : ∃ m pds own pd, VmInv m pds own ∧ pd ∈ pds ∧
    (∀ i < 768, m.mem pd i = 0#32) ∧
    elfHeader (.ofBytes (twoSegments 0x08048800)) = some twoHeader ∧
    (elfLoad (.ofBytes (twoSegments 0x08048800)) pd m []).2.2 ≠ 0 ∧
    ImageApart (loadHeaders (.ofBytes (twoSegments 0x08048800)) twoHeader (List.range 2)) ∧
    ∃ ph ∈ loadHeaders (.ofBytes (twoSegments 0x08048800)) twoHeader (List.range 2),
      ¬SegmentHeld (elfLoad (.ofBytes (twoSegments 0x08048800)) pd m []).1.machine pd
        (twoSegments 0x08048800) ph := by
  have hheaders : loadHeaders (.ofBytes (twoSegments 0x08048800)) twoHeader (List.range 2) =
      [byteSegment 0 0x08048000, byteSegment 1 0x08048800] := by decide +kernel
  obtain ⟨m, pds, own, pd, hinv, hpd, hempty, hcheck, -⟩ :=
    @smallLoad_of_check (.ofBytes (twoSegments 0x08048800)) (fun pd res => decide
      (res.2.2 ≠ 0 ∧ userView res.1.machine pd 0x08048000 = some (true, 0#8))) (by decide +kernel)
  obtain ⟨hret, hview⟩ := of_decide_eq_true hcheck
  rw [hheaders]
  refine ⟨m, pds, own, pd, hinv, hpd, hempty, by decide +kernel, hret,
    byteSegments_apart (by decide) (by decide), _, List.mem_cons_self, fun hheld => ?_⟩
  obtain ⟨writable, hbyte, -⟩ := hheld 0x08048000 (byteSegment_covers.mpr rfl)
  rw [hview, Option.some.injEq, Prod.mk.injEq] at hbyte
  exact absurd hbyte.2 (by decide +kernel)

/-- Segments in pages of their own hold their bytes. -/
theorem elf_load_contents_apart : ∃ m pds own pd, VmInv m pds own ∧ pd ∈ pds ∧
    (elfLoad (.ofBytes (twoSegments 0x08049000)) pd m []).2.2 ≠ 0 ∧
    ∀ ph ∈ loadHeaders (.ofBytes (twoSegments 0x08049000)) twoHeader (List.range 2),
      SegmentHeld (elfLoad (.ofBytes (twoSegments 0x08049000)) pd m []).1.machine pd
        (twoSegments 0x08049000) ph := by
  have hheaders : loadHeaders (.ofBytes (twoSegments 0x08049000)) twoHeader (List.range 2) =
      [byteSegment 0 0x08048000, byteSegment 1 0x08049000] := by decide +kernel
  obtain ⟨m, pds, own, pd, hinv, hpd, hempty, hcheck, -⟩ :=
    @smallLoad_of_check (.ofBytes (twoSegments 0x08049000)) (fun pd res => decide
      (res.2.2 ≠ 0)) (by decide +kernel)
  have hret := of_decide_eq_true hcheck
  refine ⟨m, pds, own, pd, hinv, hpd, hret, (elf_load_contents_iff hinv hpd hempty
    (holds_ofBytes (by decide +kernel)) (show _ = some twoHeader by decide +kernel) hret ?_).mpr ?_⟩
  · change ImageApart (loadHeaders _ twoHeader (List.range 2))
    rw [hheaders]
    exact byteSegments_apart (by decide) (by decide)
  · change SharedPagesAgree (loadHeaders _ twoHeader (List.range 2)) _
    have hfirst : lastOver Elf32Phdr.HasPage [byteSegment 0 0x08048000, byteSegment 1 0x08049000]
        0x08048000 = some (byteSegment 0 0x08048000) := by decide +kernel
    have hsecond : lastOver Elf32Phdr.HasPage [byteSegment 0 0x08048000, byteSegment 1 0x08049000]
        0x08049000 = some (byteSegment 1 0x08049000) := by decide +kernel
    rw [hheaders]
    unfold SharedPagesAgree
    simp only [List.forall_mem_cons, byteSegment_covers, forall_eq, hfirst, hsecond,
      Option.some.injEq, List.not_mem_nil, false_implies, implies_true, and_true]
    exact ⟨fun last hlast hne => absurd hlast.symm hne, fun last hlast hne => absurd hlast.symm hne⟩

end EnclaveOS
