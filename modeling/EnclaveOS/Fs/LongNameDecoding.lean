import EnclaveOS.Fs.LongNames

/-!
# LongNameDecoding - which long names are read back

A long name is stored in groups of 13 units, the last group first.  The driver puts the bytes of
each group at 13 times its number, so a group with a character of two or three bytes runs into
the next one, which was stored before it.
-/

namespace EnclaveOS

open ByteMemory

/-- The number of entries for a long name. -/
def lfnCount (units : List (BitVec 16)) : Nat := (units.length + 12) / 13

/-- The units of a group, without padding. -/
def groupUnits (units : List (BitVec 16)) (i : Nat) : List (BitVec 16) :=
  (units.drop (13 * i)).take 13

/-- The padding of a group that is not full. -/
def groupPadding (units : List (BitVec 16)) (i : Nat) : List (BitVec 16) :=
  if (groupUnits units i).length < 13 then
    0 :: List.replicate (12 - (groupUnits units i).length) 0xFFFF
  else []

/-- The entry of a group of a long name. -/
structure StoredGroup (short : DirEntry) (units : List (BitVec 16)) (i : Nat) (lfn : DirEntry) :
    Prop where
  order : lfn.order =
    BitVec.ofNat 8 (i + 1) ||| if i + 1 = lfnCount units then 0x40 else 0
  attr : lfn.attr = fat32AttrLfn
  checksum : lfn.checksum = lfnChecksum short
  units : lfn.units = groupUnits units i ++ groupPadding units i

/-- The entries of the first groups of a long name, the last of them first. -/
def StoredGroups (short : DirEntry) (units : List (BitVec 16)) : Nat → List DirEntry → Prop
  | 0, lfns => lfns = []
  | i + 1, lfns => ∃ lfn rest, lfns = lfn :: rest ∧ StoredGroup short units i lfn ∧
      StoredGroups short units i rest

section Utf8

variable {unit : BitVec 16} {units : List (BitVec 16)}

theorem utf8_padding (units : List (BitVec 16)) (i : Nat) :
    utf8 (groupPadding units i) = if (groupUnits units i).length < 13 then [0] else [] := by
  unfold groupPadding
  split_ifs
  · rw [utf8_cons (by decide)]
    have hpad : ∀ n, utf8 (List.replicate n 0xFFFF) = [] := by
      intro n
      induction n with
      | zero => rfl
      | succ n ih => rw [List.replicate_succ, utf8_cons_pad, ih]
    rw [hpad]
    rfl
  · rfl

/-- A byte with its highest bit set. -/
theorem highBit_ne_zero {a b : BitVec 8} (h : a.getLsbD 7 = true) : a ||| b ≠ 0 := by
  intro hzero
  have hbit : (a ||| b).getLsbD 7 = true := by rw [BitVec.getLsbD_or, h, Bool.true_or]
  rw [hzero] at hbit
  exact absurd hbit (by decide)

/-- A character that is not NUL has no NUL in its bytes. -/
theorem ucs2ToUtf8_ne_zero (h : unit ≠ 0) : ∀ b ∈ ucs2ToUtf8 unit, b ≠ 0 := by
  unfold ucs2ToUtf8
  split_ifs with hascii htwo
  · intro b hb
    rw [List.mem_singleton] at hb
    rw [hb]
    intro hzero
    have hnat := congrArg BitVec.toNat hzero
    rw [BitVec.toNat_setWidth] at hnat
    have hlt : unit.toNat < 128 := hascii
    refine h (BitVec.eq_of_toNat_eq ?_)
    simp only [BitVec.ofNat_eq_ofNat, BitVec.toNat_ofNat, Nat.zero_mod] at hnat ⊢
    omega
  · intro b hb
    simp only [List.mem_cons, List.not_mem_nil, or_false] at hb
    rcases hb with rfl | rfl <;> exact highBit_ne_zero (by decide)
  · intro b hb
    simp only [List.mem_cons, List.not_mem_nil, or_false] at hb
    rcases hb with rfl | rfl | rfl <;> exact highBit_ne_zero (by decide)

/-- A character has one byte exactly when it is ASCII. -/
theorem length_ucs2ToUtf8_eq_one : (ucs2ToUtf8 unit).length = 1 ↔ unit < 0x80 := by
  unfold ucs2ToUtf8
  split_ifs with hascii
  · exact iff_of_true rfl hascii
  · exact iff_of_false (by simp) hascii
  · exact iff_of_false (by simp) hascii

theorem utf8_ne_zero (h : ∀ u ∈ units, u ≠ 0 ∧ u ≠ 0xFFFF) : ∀ b ∈ utf8 units, b ≠ 0 := by
  intro b hb
  obtain ⟨u, hu, hbu⟩ := List.mem_flatMap.mp hb
  exact ucs2ToUtf8_ne_zero (h u (List.mem_of_mem_filter hu)).1 b hbu

/-- The bytes of a string are at least as many as its characters. -/
theorem length_le_utf8 (h : ∀ u ∈ units, u ≠ 0 ∧ u ≠ 0xFFFF) :
    units.length ≤ (utf8 units).length := by
  induction units with
  | nil => exact Nat.zero_le _
  | cons u units ih =>
    rw [utf8_cons (h u List.mem_cons_self).2, List.length_append, List.length_cons]
    have hpos := length_ucs2ToUtf8_pos u
    have hrest := ih fun x hx => h x (List.mem_cons_of_mem u hx)
    omega

/-- They are as many exactly for an ASCII string. -/
theorem length_utf8_eq_iff (h : ∀ u ∈ units, u ≠ 0 ∧ u ≠ 0xFFFF) :
    (utf8 units).length = units.length ↔ ∀ u ∈ units, u < 0x80 := by
  induction units with
  | nil => simp
  | cons u units ih =>
    have hrest := fun x hx => h x (List.mem_cons_of_mem u hx)
    rw [utf8_cons (h u List.mem_cons_self).2, List.length_append, List.length_cons,
      List.forall_mem_cons, ← ih hrest, ← length_ucs2ToUtf8_eq_one]
    have hpos := length_ucs2ToUtf8_pos u
    have hle := length_le_utf8 hrest
    omega

end Utf8

section Groups

variable {units : List (BitVec 16)} {i : Nat}

/-- The bytes from a group on. -/
def unitBytes (units : List (BitVec 16)) (i : Nat) : List (BitVec 8) := utf8 (units.drop (13 * i))

theorem unitBytes_succ (units : List (BitVec 16)) (i : Nat) :
    unitBytes units i = utf8 (groupUnits units i) ++ unitBytes units (i + 1) := by
  unfold unitBytes groupUnits
  rw [← utf8_append, Nat.mul_succ, ← List.drop_drop, List.take_append_drop]

theorem groupUnits_subset : ∀ u ∈ groupUnits units i, u ∈ units :=
  fun _ h => List.mem_of_mem_drop (List.mem_of_mem_take h)

theorem length_groupUnits : (groupUnits units i).length = min 13 (units.length - 13 * i) := by
  unfold groupUnits
  rw [List.length_take, List.length_drop]

theorem groupUnits_full (h : i + 1 < lfnCount units) : (groupUnits units i).length = 13 := by
  unfold lfnCount at h
  rw [length_groupUnits]
  omega

/-- The bytes of a name, up to a group. -/
theorem length_bytes (units : List (BitVec 16)) (i : Nat) :
    (utf8 units).length = (utf8 (units.take (13 * i))).length + (utf8 (groupUnits units i)).length +
      (unitBytes units (i + 1)).length := by
  rw [Nat.add_assoc, ← List.length_append, ← unitBytes_succ]
  unfold unitBytes
  rw [← List.length_append, ← utf8_append, List.take_append_drop]

/-- The place of a group is not behind that of its bytes. -/
theorem le_bytes (hunits : ∀ u ∈ units, u ≠ 0 ∧ u ≠ 0xFFFF) (h : i < lfnCount units) :
    13 * i ≤ (utf8 (units.take (13 * i))).length := by
  have hle : (units.take (13 * i)).length ≤ (utf8 (units.take (13 * i))).length :=
    length_le_utf8 fun u hu => hunits u (List.mem_of_mem_take hu)
  rw [List.length_take] at hle
  unfold lfnCount at h
  omega

end Groups

/-- A row of bytes in a memory. -/
theorem storeBytes_apply (mem : Bytes) (a : Nat) (bs : List (BitVec 8)) (k : Nat) :
    storeBytes mem a bs k =
      if a ≤ k ∧ k < a + bs.length then bs.getD (k - a) 0 else mem k := by
  by_cases hin : a ≤ k ∧ k < a + bs.length
  · rw [if_pos hin]
    have hstored := bytesAt_storeBytes mem a bs (k - a) (by omega)
    rw [Nat.add_sub_cancel' hin.1] at hstored
    rw [hstored, List.getD_eq_getElem]
  · rw [if_neg hin]
    exact storeBytes_of_outside (by omega)

/-- The buffer after the entries of the first groups, the last of them first. -/
def storeGroups (units : List (BitVec 16)) : Nat → Bytes → Bytes
  | 0, buffer => buffer
  | i + 1, buffer => storeGroups units i
      (storeBytes buffer (13 * i) (utf8 (groupUnits units i ++ groupPadding units i)))

section Buffer

variable {units : List (BitVec 16)} {buffer : Bytes} {i : Nat}

/-- The bytes of a group, and of the NUL behind a group that is not full. -/
theorem utf8_group (units : List (BitVec 16)) (i : Nat) :
    utf8 (groupUnits units i ++ groupPadding units i) = utf8 (groupUnits units i) ++
      if (groupUnits units i).length < 13 then [0] else [] := by
  rw [utf8_append, utf8_padding]

/-- A buffer that holds the bytes of a name from a group on. -/
def HoldsFrom (units : List (BitVec 16)) (i : Nat) (buffer : Bytes) : Prop :=
  ∀ p, buffer p = if 13 * i ≤ p then (unitBytes units i).getD (p - 13 * i) 0 else 0

/-- A group of ASCII characters, or the last group, ends where the next one starts. -/
theorem HoldsFrom.storeGroup (h : HoldsFrom units (i + 1) buffer)
    (hascii : (utf8 (groupUnits units i)).length = 13 ∧ (groupUnits units i).length = 13 ∨
      unitBytes units (i + 1) = []) :
    HoldsFrom units i (storeBytes buffer (13 * i)
      (utf8 (groupUnits units i ++ groupPadding units i))) := by
  intro p
  have hp := h p
  rw [storeBytes_apply, utf8_group, unitBytes_succ units i, hp]
  rcases hascii with ⟨hbytes, hfull⟩ | hlast
  · rw [if_neg (by omega : ¬(groupUnits units i).length < 13), List.append_nil, hbytes]
    by_cases hbelow : p < 13 * i
    · rw [if_neg (by omega), if_neg (by omega), if_neg (by omega)]
    · rw [if_pos (by omega : 13 * i ≤ p)]
      by_cases hin : p < 13 * i + 13
      · rw [if_pos ⟨by omega, hin⟩, List.getD_append _ _ _ _ (by omega)]
      · rw [if_neg fun hc => hin hc.2, if_pos (by omega), List.getD_append_right _ _ _ _ (by omega),
          hbytes, Nat.mul_succ, Nat.sub_add_eq]
  · rw [hlast, List.append_nil]
    have hzero : (if 13 * (i + 1) ≤ p then ([] : List (BitVec 8)).getD (p - 13 * (i + 1)) 0
        else 0) = 0 := by
      split_ifs <;> rfl
    rw [hzero]
    by_cases hbelow : p < 13 * i
    · rw [if_neg (by omega), if_neg (by omega)]
    · rw [if_pos (by omega : 13 * i ≤ p)]
      by_cases hin : p - 13 * i < (utf8 (groupUnits units i)).length
      · rw [if_pos ⟨by omega, by rw [List.length_append]; omega⟩, List.getD_append _ _ _ _ hin]
      · rw [List.getD_eq_default _ _ (Nat.not_lt.mp hin)]
        split_ifs
        · -- the NUL behind the last group
          rw [List.getD_append_right _ _ _ _ (Nat.not_lt.mp hin)]
          cases p - 13 * i - (utf8 (groupUnits units i)).length <;> rfl
        · rfl
        · rw [List.append_nil, List.getD_eq_default _ _ (Nat.not_lt.mp hin)]
        · rfl

theorem unitBytes_count (units : List (BitVec 16)) : unitBytes units (lfnCount units) = [] := by
  unfold unitBytes lfnCount
  rw [List.drop_of_length_le (by omega), utf8_nil]

/-- With ASCII characters in all groups but the last, the groups line up. -/
theorem HoldsFrom.storeGroups (hunits : ∀ u ∈ units, u ≠ 0 ∧ u ≠ 0xFFFF)
    (hascii : ∀ u ∈ units.take (13 * (lfnCount units - 1)), u < 0x80) (hi : i ≤ lfnCount units)
    (h : HoldsFrom units i buffer) : HoldsFrom units 0 (storeGroups units i buffer) := by
  induction i generalizing buffer with
  | zero => exact h
  | succ i ih =>
    refine ih (by omega) (h.storeGroup ?_)
    rcases Nat.lt_or_ge (i + 1) (lfnCount units) with hlt | hge
    · have hfull := groupUnits_full hlt
      refine Or.inl ⟨?_, hfull⟩
      rw [(length_utf8_eq_iff fun u hu => hunits u (groupUnits_subset u hu)).mpr, hfull]
      intro u hu
      refine hascii u ?_
      unfold groupUnits at hu
      rw [List.take_drop] at hu
      exact (List.take_sublist_take_left (by omega)).subset (List.mem_of_mem_drop hu)
    · rw [show i + 1 = lfnCount units by omega]
      exact Or.inr (unitBytes_count units)

/-- What lies behind all groups stays zero. -/
theorem storeGroups_above {m : Nat} (hm : ∀ j < i, 13 * j + (utf8 (groupUnits units j)).length ≤ m)
    (h : ∀ p, m ≤ p → buffer p = 0) : ∀ p, m ≤ p → storeGroups units i buffer p = 0 := by
  induction i generalizing buffer with
  | zero => exact h
  | succ i ih =>
    refine ih (fun j hj => hm j (by omega)) fun p hp => ?_
    have hgroup := hm i (Nat.lt_succ_self i)
    rw [storeBytes_apply, utf8_group]
    split_ifs
    · rw [List.getD_append_right _ _ _ _ (by omega)]
      cases p - 13 * i - (utf8 (groupUnits units i)).length <;> rfl
    · exact h p hp
    · rw [List.append_nil, List.getD_eq_default _ _ (by omega)]
    · exact h p hp

/-- The first group is stored last. -/
theorem storeGroups_first (hi : 0 < i) {q : Nat} (hq : q < (utf8 (groupUnits units 0)).length) :
    storeGroups units i buffer q = (utf8 (groupUnits units 0)).getD q 0 := by
  induction i generalizing buffer with
  | zero => exact absurd hi (Nat.lt_irrefl 0)
  | succ i ih =>
    rw [storeGroups]
    rcases Nat.eq_zero_or_pos i with rfl | hpos
    · rw [storeGroups, storeBytes_apply, utf8_group, if_pos ⟨by omega, by
        rw [List.length_append]; omega⟩, Nat.mul_zero, Nat.sub_zero,
        List.getD_append _ _ _ _ hq]
    · exact ih hpos

/-- The name in the buffer is the one stored exactly when the groups line up. -/
theorem nameIn_storeGroups_iff (hpos : 0 < units.length) (hunits : ∀ u ∈ units, u ≠ 0 ∧ u ≠ 0xFFFF)
    (hlen : (utf8 units).length ≤ 254) :
    nameIn (storeGroups units (lfnCount units) fun _ => 0) = utf8 units ↔
      ∀ u ∈ units.take (13 * (lfnCount units - 1)), u < 0x80 := by
  have hne : ∀ j, ∀ h : j < (utf8 units).length, (utf8 units)[j] ≠ 0 := fun j h =>
    utf8_ne_zero hunits _ (List.getElem_mem h)
  rw [nameIn_eq_iff (by omega)]
  constructor
  · rintro ⟨hbytes, -⟩
    by_contra hascii
    have hlong := length_le_utf8 hunits
    -- a wide character moves the end of the name behind the end of every group
    have hgroups : ∀ j < lfnCount units,
        13 * j + (utf8 (groupUnits units j)).length ≤ (utf8 units).length - 1 := by
      intro j hj
      have hsum := length_bytes units j
      have hplace := le_bytes hunits hj
      rcases Nat.lt_or_ge (j + 1) (lfnCount units) with hlt | hge
      · have hrest : (units.drop (13 * (j + 1))).length ≤
            (utf8 (units.drop (13 * (j + 1)))).length :=
          length_le_utf8 fun u hu => hunits u (List.mem_of_mem_drop hu)
        rw [List.length_drop] at hrest
        unfold lfnCount at hlt
        unfold unitBytes at hsum
        omega
      · have hlast : j = lfnCount units - 1 := by omega
        have hprefix : (utf8 (units.take (13 * j))).length ≠ (units.take (13 * j)).length :=
          fun heq => hascii (hlast ▸ (length_utf8_eq_iff fun u hu =>
            hunits u (List.mem_of_mem_take hu)).mp heq)
        rw [List.length_take] at hprefix
        unfold lfnCount at hj
        omega
    have hblank : ∀ p, (utf8 units).length - 1 ≤ p → (fun _ => 0 : Bytes) p = 0 := fun _ _ => rfl
    have habove := storeGroups_above hgroups hblank _ le_rfl
    have hbyte := (hbytes ((utf8 units).length - 1) (by omega)).1
    rw [habove] at hbyte
    exact hne _ _ hbyte.symm
  · intro hascii
    have hstart : HoldsFrom units (lfnCount units) fun _ => 0 := by
      intro p
      rw [unitBytes_count]
      split_ifs <;> rfl
    have hholds := hstart.storeGroups hunits hascii le_rfl
    have hbytes : unitBytes units 0 = utf8 units := rfl
    refine ⟨fun j hj => ?_, ?_⟩
    · rw [hholds j, if_pos (Nat.zero_le _), hbytes, Nat.mul_zero, Nat.sub_zero,
        List.getD_eq_getElem _ _ hj]
      exact ⟨rfl, hne j hj⟩
    · rw [hholds, if_pos (Nat.zero_le _), hbytes, Nat.mul_zero, Nat.sub_zero,
        List.getD_eq_default _ _ le_rfl]

/-- The buffer does not stay empty. -/
theorem storeGroups_zero_ne (hpos : 0 < units.length) (hunits : ∀ u ∈ units, u ≠ 0 ∧ u ≠ 0xFFFF)
    (buffer : Bytes) : storeGroups units (lfnCount units) buffer 0 ≠ 0 := by
  have hgroup : ∀ u ∈ groupUnits units 0, u ≠ 0 ∧ u ≠ 0xFFFF := fun u hu =>
    hunits u (groupUnits_subset u hu)
  have hle := length_le_utf8 hgroup
  rw [length_groupUnits] at hle
  have hq : 0 < (utf8 (groupUnits units 0)).length := by omega
  rw [storeGroups_first (by unfold lfnCount; omega) hq, List.getD_eq_getElem _ _ hq]
  exact utf8_ne_zero hgroup _ (List.getElem_mem hq)

end Buffer

section Entries

variable {units : List (BitVec 16)} {short lfn : DirEntry} {lfns : List DirEntry} {i : Nat}
  {long : Option LongName} {buffer : Bytes}

/-- The order bytes of the entries of a name. -/
theorem order_facts : ∀ i < 20,
    (∀ flag ∈ [0x40#8, 0#8], BitVec.ofNat 8 (i + 1) ||| flag ≠ fat32EntryEnd ∧
      BitVec.ofNat 8 (i + 1) ||| flag ≠ fat32EntryDeleted ∧
      ((BitVec.ofNat 8 (i + 1) ||| flag) &&& 0x1F).toNat = i + 1 ∧
      (BitVec.ofNat 8 (i + 1) ||| flag) &&& 0x40 = flag) := by
  decide

/-- The groups of a name of at most 254 bytes fit. -/
theorem group_fits (hunits : ∀ u ∈ units, u ≠ 0 ∧ u ≠ 0xFFFF) (hlen : (utf8 units).length ≤ 254)
    (hi : i < lfnCount units) :
    13 * i + (utf8 (groupUnits units i ++ groupPadding units i)).length ≤ 256 := by
  have hsum := length_bytes units i
  have hplace := le_bytes hunits hi
  rw [utf8_group, List.length_append]
  have hnul : (if (groupUnits units i).length < 13 then [0] else [] : List (BitVec 8)).length ≤ 1 := by
    split_ifs <;> simp
  omega

/-- An entry of a name is stored at its place. -/
theorem StoredGroup.event (h : StoredGroup short units i lfn)
    (hunits : ∀ u ∈ units, u ≠ 0 ∧ u ≠ 0xFFFF) (hlen : (utf8 units).length ≤ 254)
    (hcount : lfnCount units ≤ 20) (hi : i < lfnCount units)
    (hlong : (i + 1 = lfnCount units ∧ buffer = fun _ => 0) ∨
      i + 1 < lfnCount units ∧ long = some (lfnChecksum short, buffer)) :
    dirEvent lfn long = .skip (some (lfnChecksum short, storeBytes buffer (13 * i)
      (utf8 (groupUnits units i ++ groupPadding units i)))) := by
  have hfit := group_fits hunits hlen hi
  obtain ⟨hend, hdeleted, hnumber, hflag⟩ := order_facts i (by omega)
    (if i + 1 = lfnCount units then 0x40 else 0) (by split_ifs <;> simp)
  rw [← h.order] at hend hdeleted hnumber hflag
  have hpos : lfn.lfnPos = (13 * i : Nat) := by
    unfold DirEntry.lfnPos
    rw [hnumber]
    omega
  have hstore : lfnStore lfn.units lfn.lfnPos buffer = some (storeBytes buffer (13 * i)
      (utf8 (groupUnits units i ++ groupPadding units i))) := by
    rw [lfnStore_eq, hpos, h.units, if_pos (Or.inr ⟨by omega, by omega⟩), Int.toNat_natCast]
  have hnext : longNext lfn long = some (some (lfnChecksum short, storeBytes buffer (13 * i)
      (utf8 (groupUnits units i ++ groupPadding units i)))) := by
    unfold longNext
    rw [hflag]
    rcases hlong with ⟨hlast, rfl⟩ | ⟨hlt, rfl⟩
    · rw [if_pos hlast, if_pos (by decide)]
      dsimp only
      rw [if_pos rfl, hstore, h.checksum]
      rfl
    · rw [if_neg (by omega : ¬i + 1 = lfnCount units), if_neg (by decide)]
      dsimp only
      rw [if_pos h.checksum, hstore]
      rfl
  change lfn 0 ≠ _ at hend hdeleted
  unfold dirEvent
  rw [if_neg hend, if_neg hdeleted, if_pos h.attr, hnext]

/-- The entries of a name leave its groups in the buffer, and list no file. -/
theorem StoredGroups.scan (h : StoredGroups short units i lfns)
    (hunits : ∀ u ∈ units, u ≠ 0 ∧ u ≠ 0xFFFF) (hlen : (utf8 units).length ≤ 254)
    (hcount : lfnCount units ≤ 20) (hi : i ≤ lfnCount units)
    (hlong : (i = lfnCount units ∧ 0 < i ∧ buffer = fun _ => 0) ∨
      i < lfnCount units ∧ long = some (lfnChecksum short, buffer)) :
    listEnd (lfns.map some) long = .next (some (lfnChecksum short, storeGroups units i buffer)) ∧
      listing (lfns.map some) long = [] := by
  induction i generalizing lfns long buffer with
  | zero =>
    obtain rfl : lfns = [] := h
    rcases hlong with ⟨-, hpos, -⟩ | ⟨-, rfl⟩
    · exact absurd hpos (Nat.lt_irrefl 0)
    · exact ⟨rfl, rfl⟩
  | succ i ih =>
    obtain ⟨lfn, rest, rfl, hlfn, hrest⟩ := h
    have hstate : (i + 1 = lfnCount units ∧ buffer = fun _ => 0) ∨
        i + 1 < lfnCount units ∧ long = some (lfnChecksum short, buffer) := by
      rcases hlong with ⟨hlast, -, hzero⟩ | hlong
      · exact Or.inl ⟨hlast, hzero⟩
      · exact Or.inr hlong
    have hevent := hlfn.event hunits hlen hcount (by omega) hstate
    rw [List.map_cons, listEnd_cons, listing, hevent]
    exact ih hrest (by omega) (Or.inr ⟨by omega, rfl⟩)

end Entries

section Decoding

variable {disk : Disk} {v : Fat32Volume} {start : Nat} {cache : FatCache} {node : FatNode}
  {clusters : Nat}

/-- The entry of a file behind those of its long name. -/
structure FileEntry (short : DirEntry) : Prop where
  used : short 0 ≠ fat32EntryEnd ∧ short 0 ≠ fat32EntryDeleted
  notLong : short.attr ≠ fat32AttrLfn
  notVolume : short.attr &&& fat32AttrVolumeId = 0

/-- A file with a long name in a directory: the entries before its own go on to them, and none
of them has the same name. -/
structure NamedFile (units : List (BitVec 16)) (pre lfns : List DirEntry) (short : DirEntry) :
    Prop where
  chars : ∀ u ∈ units, u ≠ 0 ∧ u ≠ 0xFFFF
  count : 1 ≤ units.length ∧ units.length ≤ 255
  bytes : (utf8 units).length ≤ 254
  groups : StoredGroups short units (lfnCount units) lfns
  entry : FileEntry short
  before : ∃ long, listEnd (pre.map some) none = .next long
  unique : ∀ file ∈ listing (pre.map some) none, fullName file.1 file.2 ≠ utf8 units

/-- The place of a file with a long name in the listing. -/
theorem NamedFile.listing_eq {units : List (BitVec 16)} {pre lfns post : List DirEntry}
    {short : DirEntry} (h : NamedFile units pre lfns short) :
    listing ((pre ++ (lfns ++ short :: post)).map some) none =
      listing (pre.map some) none ++
        (short, some (lfnChecksum short, storeGroups units (lfnCount units) fun _ => 0)) ::
          listing (post.map some) none := by
  obtain ⟨long, hbefore⟩ := h.before
  obtain ⟨hpos, hmax⟩ := h.count
  have hcount : 0 < lfnCount units ∧ lfnCount units ≤ 20 := by
    unfold lfnCount
    omega
  obtain ⟨hscan, hnone⟩ := @StoredGroups.scan units short lfns _ long (fun _ => 0) h.groups
    h.chars h.bytes hcount.2 le_rfl (Or.inl ⟨rfl, hcount.1, rfl⟩)
  have hshort : ∀ long, dirEvent short long = .file long := by
    intro long
    unfold dirEvent
    rw [if_neg h.entry.used.1, if_neg h.entry.used.2, if_neg h.entry.notLong,
      if_neg (not_not.mpr h.entry.notVolume)]
  rw [List.map_append, listing_append hbefore, List.map_append, listing_append hscan, hnone,
    List.nil_append, List.map_cons, listing, hshort]

/-- The name of the file is the one stored exactly when the groups line up. -/
theorem NamedFile.fullName_iff {units : List (BitVec 16)} {pre lfns : List DirEntry}
    {short : DirEntry} (h : NamedFile units pre lfns short) :
    fullName short (some (lfnChecksum short, storeGroups units (lfnCount units) fun _ => 0)) =
        utf8 units ↔
      ∀ u ∈ units.take (13 * (lfnCount units - 1)), u < 0x80 := by
  rw [← nameIn_storeGroups_iff h.count.1 h.chars h.bytes]
  unfold fullName
  dsimp only
  rw [if_pos ⟨rfl, storeGroups_zero_ne h.count.1 h.chars _⟩]

/-- A file with a long name is reported under its name and found under it exactly when all
characters before the last group of thirteen are ASCII. -/
theorem long_name_decoded_iff {units : List (BitVec 16)} {pre lfns post : List DirEntry}
    {short : DirEntry} (hnode : node.volume = some (v, start))
    (h : FatDirectory disk v start cache clusters (pre ++ (lfns ++ short :: post)))
    (hfile : NamedFile units pre lfns short) {rounds : Nat} (hrounds : clusters < rounds) :
    (node.Lists disk cache rounds (listing (pre.map some) none).length (utf8 units) short.cluster ∧
        node.Finds disk cache rounds (utf8 units) (some (fatChild v (utf8 units) short))) ↔
      ∀ u ∈ units.take (13 * (lfnCount units - 1)), u < 0x80 := by
  rw [← hfile.fullName_iff]
  have hget : (listing ((pre ++ (lfns ++ short :: post)).map some) none)[
      (listing (pre.map some) none).length]? = some (short,
        some (lfnChecksum short, storeGroups units (lfnCount units) fun _ => 0)) := by
    rw [hfile.listing_eq, List.getElem?_append_right le_rfl, Nat.sub_self]
    rfl
  have hindex : (listing (pre.map some) none).length < 4294967296 := by
    have hsize := h.length_le
    have hpre := length_listing_le (pre.map some) none
    rw [List.length_map] at hpre
    simp only [List.length_append, List.length_cons] at hsize
    omega
  have hlisted : (listing ((pre ++ (lfns ++ short :: post)).map some) none)[
      (listing (pre.map some) none).length]? = none →
      listEnd ((pre ++ (lfns ++ short :: post)).map some) none ≠ .overrun := by
    rw [hget]
    rintro ⟨⟩
  rw [lists_iff hnode h.toListed hrounds hlisted hindex hfile.bytes, hget]
  constructor
  · rintro ⟨⟨file, hsome, hname, -⟩, -⟩
    cases hsome
    exact hname
  · intro hname
    refine ⟨⟨_, rfl, hname, rfl⟩, ?_⟩
    have hfound : (listing ((pre ++ (lfns ++ short :: post)).map some) none).find?
        (fun file => fullName file.1 file.2 = utf8 units) = some (short,
          some (lfnChecksum short, storeGroups units (lfnCount units) fun _ => 0)) := by
      rw [hfile.listing_eq, List.find?_append, List.find?_eq_none.mpr (by simpa using hfile.unique),
        Option.none_or, List.find?_cons_of_pos (by simpa using hname)]
    have hfinds := finds_listing hnode h.toListed hrounds (by rw [hfound]; rintro ⟨⟩) hfile.bytes
    rw [hfound] at hfinds
    exact hfinds

end Decoding

/-- A name of fourteen characters, the first of them outside of ASCII. -/
def wideName : List (BitVec 16) :=
  [0xE9, 0x61, 0x62, 0x63, 0x64, 0x65, 0x66, 0x67, 0x68, 0x69, 0x6A, 0x6B, 0x6C, 0x6D]

/-- Its checksum. -/
def sumA : BitVec 8 := 0x80

/-- A directory with one file, named `Hi` and `A`. -/
def hiEntries : List (List (BitVec 8)) :=
  [lfnBytes 0x41 sumA ([0x48, 0x69, 0] ++ List.replicate 10 0xFFFF),
    fileBytes shortA 5]

theorem hi_stored : StoredGroup (smallEntry hiEntries 1) [0x48, 0x69] 0 (smallEntry hiEntries 0) :=
  ⟨by decide +kernel, by decide +kernel, by decide +kernel, by decide +kernel⟩

theorem hi_named :
    NamedFile [0x48, 0x69] [] [smallEntry hiEntries 0] (smallEntry hiEntries 1) where
  chars := by simp
  count := by simp
  bytes := by decide +kernel
  groups := ⟨smallEntry hiEntries 0, [], rfl, hi_stored, rfl⟩
  entry := ⟨by decide +kernel, by decide +kernel, by decide +kernel⟩
  before := ⟨none, rfl⟩
  unique := by simp [listing]

theorem map_range_sixteen {α : Type*} (f : Nat → α) :
    (List.range 16).map f = [] ++ ([f 0] ++ f 1 :: (List.range' 2 14).map f) := rfl

/-- A name that fits into one entry is read back. -/
theorem long_name_decoded_hi :
    smallVolume.root.Lists (smallDisk rootFat hiEntries) .boot 2 0 (utf8 [0x48, 0x69])
        (smallEntry hiEntries 1).cluster ∧
      smallVolume.root.Finds (smallDisk rootFat hiEntries) .boot 2 (utf8 [0x48, 0x69])
        (some (fatChild smallVolume (utf8 [0x48, 0x69]) (smallEntry hiEntries 1))) := by
  have hdir := smallDirectory hiEntries
  rw [map_range_sixteen] at hdir
  exact (long_name_decoded_iff rfl hdir hi_named (by decide)).mpr (by simp [lfnCount])

/-- The last character of the name is lost. -/
theorem wide_name_loses :
    (smallVolume.root.readdir (smallDisk rootFat
      [lfnBytes 0x42 sumA (0x6D :: 0 :: List.replicate 11 0xFFFF),
        lfnBytes 0x01 sumA (wideName.take 13),
        fileBytes shortA 5]) 0 ⟨0, fun _ => 0⟩ 2 .boot).result.listed =
      some (utf8 (wideName.take 13), 5) ∧ utf8 (wideName.take 13) ≠ utf8 wideName := by
  decide +kernel

end EnclaveOS
