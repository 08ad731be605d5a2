import EnclaveOS.Process.SyscallFaults

/-!
# UserBuffers - what the checks on user memory accept

The pointer checks of the two ports against the buffer they stand for, and the bounded
copy of a string from user memory.
-/

namespace EnclaveOS

/-- `is_user_buffer` of `arm_syscall.c`. -/
def isUserBuffer (addr len : Nat) : Bool :=
  if len = 0 then true
  else if wrap32 (addr + len) < addr then false
  else if kernelSpaceStart ≤ addr then false
  else true

/-- Every address of a buffer, computed without wrapping, is below the kernel. -/
def BelowKernel (addr size : Nat) : Prop :=
  ∀ i < size, addr + i < kernelSpaceStart

theorem belowKernel_iff {addr size : Nat} (hsize : 0 < size) :
    BelowKernel addr size ↔ addr + size ≤ kernelSpaceStart := by
  constructor
  · intro h
    have hlast := h (size - 1) (by omega)
    omega
  · intro h i hi
    omega

/-- `is_user_pointer` decides whether the buffer is not null and lies below the kernel. -/
def UserPointerExact (ptr size : Nat) : Prop :=
  isUserPointer ptr size = true ↔
    ptr ≠ 0 ∧ ptr < kernelSpaceStart ∧ BelowKernel ptr size

/-- `is_user_buffer` decides whether the buffer lies below the kernel. -/
def UserBufferExact (addr len : Nat) : Prop :=
  isUserBuffer addr len = true ↔ BelowKernel addr len

theorem isUserPointer_iff {ptr size : Nat} (hptr : ptr < 4294967296) (hsize : size < 4294967296) :
    isUserPointer ptr size = true ↔
      ptr ≠ 0 ∧ ptr < kernelSpaceStart ∧ (ptr + size ≤ kernelSpaceStart ∨ kernelSpaceStart < size) := by
  unfold isUserPointer wrap32 userSpaceEnd
  unfold kernelSpaceStart at *
  split_ifs
  all_goals simp
  all_goals omega

theorem isUserBuffer_iff {addr len : Nat} (haddr : addr < 4294967296) (hlen : len < 4294967296)
    (hpos : 0 < len) :
    isUserBuffer addr len = true ↔ addr < kernelSpaceStart ∧ addr + len < 4294967296 := by
  unfold isUserBuffer wrap32
  unfold kernelSpaceStart at *
  split_ifs
  all_goals simp
  all_goals omega

/-- The check of x86 wraps on sizes above 3 GB; the check of the ARM port does not look at
the end of a buffer that starts below the kernel. -/
theorem user_checks_exact_iff {ptr size : Nat} (hptr : ptr < 4294967296)
    (hsize : size < 4294967296) :
    (UserPointerExact ptr size ↔
      ptr = 0 ∨ kernelSpaceStart ≤ ptr ∨ size ≤ kernelSpaceStart) ∧
    (0 < size → (UserBufferExact ptr size ↔
      kernelSpaceStart ≤ ptr ∨ ptr + size ≤ kernelSpaceStart ∨ 4294967296 ≤ ptr + size)) := by
  constructor
  · unfold UserPointerExact
    rw [isUserPointer_iff hptr hsize]
    rcases Nat.eq_zero_or_pos size with rfl | hpos
    · have hempty : BelowKernel ptr 0 := fun i hi => absurd hi (Nat.not_lt_zero i)
      simp only [hempty, and_true]
      omega
    · rw [belowKernel_iff hpos]
      omega
  · intro hpos
    unfold UserBufferExact
    rw [isUserBuffer_iff hptr hsize hpos, belowKernel_iff hpos]
    unfold kernelSpaceStart
    omega

/-- A size above 3 GB passes on x86; on ARM a buffer may run into the kernel. -/
theorem user_checks_inexact :
    ¬ UserPointerExact 0x1000 0xC0000001 ∧ ¬ UserBufferExact 0xBFFFFFFF 2 := by
  constructor
  · intro hexact
    obtain ⟨-, -, hbelow⟩ := hexact.mp (by decide)
    have hlast := hbelow 0xC0000000 (by decide)
    revert hlast
    decide
  · intro hexact
    have hlast := hexact.mp (by decide) 1 (by decide)
    revert hlast
    decide

/-- A word at the top of user memory. -/
theorem user_checks_exact_word :
    (UserPointerExact 0xBFFFFFFC 4 ↔
      0xBFFFFFFC = 0 ∨ kernelSpaceStart ≤ 0xBFFFFFFC ∨ 4 ≤ kernelSpaceStart) ∧
    (0 < 4 → (UserBufferExact 0xBFFFFFFC 4 ↔ kernelSpaceStart ≤ 0xBFFFFFFC ∨
      0xBFFFFFFC + 4 ≤ kernelSpaceStart ∨ 4294967296 ≤ 0xBFFFFFFC + 4)) :=
  user_checks_exact_iff (by decide) (by decide)

def eFault : Int := 14
def eNameTooLong : Int := 36

/-- The loop of `copy_string_from_user` with `n` bytes of room left: the return
value and the bytes it stores, in order. -/
def copyStringLoop (byteAt : Nat → BitVec 8) : Nat → Nat → Int × List (BitVec 8)
  | 0, _ => (-eNameTooLong, [0#8])
  | n + 1, src =>
    if kernelSpaceStart ≤ src then (-eFault, [])
    else if byteAt src = 0#8 then (0, [0#8])
    else
      ((copyStringLoop byteAt n (src + 1)).1,
        byteAt src :: (copyStringLoop byteAt n (src + 1)).2)

/-- `copy_string_from_user`: the return value and the bytes stored from
`dest[0]` on.  The addresses it reads are `copyStringFromUser`. -/
def copyStringTo (byteAt : Nat → BitVec 8) (userSrc maxLen : Nat) : Int × List (BitVec 8) :=
  if userSrc = 0 then (-eFault, [])
  else if kernelSpaceStart ≤ userSrc then (-eFault, [])
  else copyStringLoop byteAt (maxLen - 1) userSrc

section Strings

variable {byteAt : Nat → BitVec 8} {src n maxLen : Nat}

/-- The first `n` bytes from `src` are in user space, and none is NUL. -/
def Plain (byteAt : Nat → BitVec 8) (src n : Nat) : Prop :=
  ∀ i < n, src + i < kernelSpaceStart ∧ byteAt (src + i) ≠ 0#8

/-- The string at `src` has `n` bytes before its NUL, all in user space. -/
def EndsAt (byteAt : Nat → BitVec 8) (src n : Nat) : Prop :=
  Plain byteAt src n ∧ src + n < kernelSpaceStart ∧ byteAt (src + n) = 0#8

/-- The string at `src` runs into kernel space after `n` bytes. -/
def LeavesAt (byteAt : Nat → BitVec 8) (src n : Nat) : Prop :=
  Plain byteAt src n ∧ kernelSpaceStart ≤ src + n

/-- The `n` bytes from `src` on. -/
def bytesFrom (byteAt : Nat → BitVec 8) (src n : Nat) : List (BitVec 8) :=
  (List.range n).map fun i => byteAt (src + i)

theorem bytesFrom_succ (n : Nat) :
    bytesFrom byteAt src (n + 1) = byteAt src :: bytesFrom byteAt (src + 1) n := by
  unfold bytesFrom
  rw [List.range_succ_eq_map, List.map_cons, List.map_map]
  apply congrArg₂ List.cons rfl
  apply List.map_congr_left
  intro i _
  rw [Function.comp_apply, Nat.add_assoc, Nat.add_comm 1 i]

theorem plain_succ : Plain byteAt src (n + 1) ↔
    src < kernelSpaceStart ∧ byteAt src ≠ 0#8 ∧ Plain byteAt (src + 1) n := by
  constructor
  · intro h
    have hfirst := h 0 (by omega)
    refine ⟨hfirst.1, hfirst.2, fun i hi => ?_⟩
    have hrest := h (i + 1) (by omega)
    rwa [Nat.add_comm i 1, ← Nat.add_assoc] at hrest
  · rintro ⟨hlow, hne, h⟩ i hi
    cases i with
    | zero => exact ⟨hlow, hne⟩
    | succ i =>
      rw [Nat.add_comm i 1, ← Nat.add_assoc]
      exact h i (by omega)

/-- A string ends, leaves user space, or is longer than any bound. -/
theorem string_cases (byteAt : Nat → BitVec 8) (src n : Nat) :
    (∃ k < n, EndsAt byteAt src k) ∨ (∃ k < n, LeavesAt byteAt src k) ∨ Plain byteAt src n := by
  induction n with
  | zero => exact Or.inr (Or.inr fun i hi => absurd hi (Nat.not_lt_zero i))
  | succ n ih =>
    rcases ih with ⟨k, hk, hends⟩ | ⟨k, hk, hleaves⟩ | hplain
    · exact Or.inl ⟨k, by omega, hends⟩
    · exact Or.inr (Or.inl ⟨k, by omega, hleaves⟩)
    · by_cases hlow : src + n < kernelSpaceStart
      · by_cases hnul : byteAt (src + n) = 0#8
        · exact Or.inl ⟨n, by omega, hplain, hlow, hnul⟩
        · refine Or.inr (Or.inr fun i hi => ?_)
          rcases Nat.lt_succ_iff_lt_or_eq.mp hi with hi | rfl
          · exact hplain i hi
          · exact ⟨hlow, hnul⟩
      · exact Or.inr (Or.inl ⟨n, by omega, hplain, Nat.not_lt.mp hlow⟩)

/-- Two ends of one string are the same. -/
theorem ends_unique {k : Nat} (hk : EndsAt byteAt src k ∨ LeavesAt byteAt src k)
    (hn : EndsAt byteAt src n ∨ LeavesAt byteAt src n) : k = n := by
  have hstop : ∀ {a b : Nat}, EndsAt byteAt src a ∨ LeavesAt byteAt src a →
      Plain byteAt src b → b ≤ a := by
    intro a b ha hb
    by_contra hlt
    have hplain := hb a (Nat.not_le.mp hlt)
    rcases ha with ha | ha
    · exact hplain.2 ha.2.2
    · exact Nat.not_lt.mpr ha.2 hplain.1
  have hplain : ∀ {a : Nat}, EndsAt byteAt src a ∨ LeavesAt byteAt src a → Plain byteAt src a :=
    fun ha => ha.elim And.left And.left
  exact Nat.le_antisymm (hstop hn (hplain hk)) (hstop hk (hplain hn))

theorem not_ends_and_leaves {k : Nat} (hk : EndsAt byteAt src k) (hn : LeavesAt byteAt src n) :
    False := by
  have heq := ends_unique (Or.inl hk) (Or.inr hn)
  subst heq
  exact Nat.not_lt.mpr hn.2 hk.2.1

/-- The loop copies plain bytes and goes on behind them. -/
theorem copyStringLoop_plain {k : Nat} (h : Plain byteAt src k) (n : Nat) :
    copyStringLoop byteAt (k + n) src =
      ((copyStringLoop byteAt n (src + k)).1,
        bytesFrom byteAt src k ++ (copyStringLoop byteAt n (src + k)).2) := by
  induction k generalizing src with
  | zero => simp [bytesFrom]
  | succ k ih =>
    obtain ⟨hlow, hne, hrest⟩ := plain_succ.mp h
    rw [Nat.add_right_comm, copyStringLoop, if_neg (Nat.not_le.mpr hlow), if_neg hne, ih hrest,
      bytesFrom_succ, Nat.add_assoc src 1 k, Nat.add_comm 1 k]
    rfl

theorem copyStringLoop_ends {k : Nat} (h : EndsAt byteAt src k) (hk : k < n) :
    copyStringLoop byteAt n src = (0, bytesFrom byteAt src k ++ [0#8]) := by
  obtain ⟨m, rfl⟩ : ∃ m, n = k + (m + 1) := ⟨n - k - 1, by omega⟩
  rw [copyStringLoop_plain h.1, copyStringLoop, if_neg (Nat.not_le.mpr h.2.1), if_pos h.2.2]

theorem copyStringLoop_leaves {k : Nat} (h : LeavesAt byteAt src k) (hk : k < n) :
    copyStringLoop byteAt n src = (-eFault, bytesFrom byteAt src k) := by
  obtain ⟨m, rfl⟩ : ∃ m, n = k + (m + 1) := ⟨n - k - 1, by omega⟩
  rw [copyStringLoop_plain h.1, copyStringLoop, if_pos h.2, List.append_nil]

theorem copyStringLoop_long (h : Plain byteAt src n) :
    copyStringLoop byteAt n src = (-eNameTooLong, bytesFrom byteAt src n ++ [0#8]) := by
  have hloop := copyStringLoop_plain h 0
  rwa [Nat.add_zero, copyStringLoop] at hloop

theorem copyStringLoop_length (byteAt : Nat → BitVec 8) (n src : Nat) :
    (copyStringLoop byteAt n src).2.length ≤ n + 1 := by
  induction n generalizing src with
  | zero => exact le_rfl
  | succ n ih =>
    rw [copyStringLoop]
    split_ifs
    · exact Nat.zero_le _
    · exact Nat.le_add_left 1 (n + 1)
    · exact Nat.succ_le_succ (ih (src + 1))

/-- The copy with the bound `maxLen` gives what its name and its bound say. -/
structure CopyExact (byteAt : Nat → BitVec 8) (src maxLen : Nat) : Prop where
  zero : (copyStringTo byteAt src maxLen).1 = 0 ↔ ∃ n < maxLen, EndsAt byteAt src n
  found : ∀ n < maxLen, EndsAt byteAt src n →
    (copyStringTo byteAt src maxLen).2 = bytesFrom byteAt src n ++ [0#8]
  fault : (copyStringTo byteAt src maxLen).1 = -eFault ↔ ∃ n < maxLen, LeavesAt byteAt src n
  long : (copyStringTo byteAt src maxLen).1 = -eNameTooLong ↔ Plain byteAt src maxLen
  stored : (copyStringTo byteAt src maxLen).2.length ≤ maxLen
  read : ∀ addr ∈ copyStringFromUser byteAt src maxLen, addr < kernelSpaceStart

theorem copyStringTo_loop (hnull : src ≠ 0) (hlow : ¬kernelSpaceStart ≤ src) :
    copyStringTo byteAt src maxLen = copyStringLoop byteAt (maxLen - 1) src := by
  unfold copyStringTo
  rw [if_neg hnull, if_neg hlow]

theorem copyStringTo_length (hpos : 0 < maxLen) :
    (copyStringTo byteAt src maxLen).2.length ≤ maxLen := by
  unfold copyStringTo
  split_ifs
  · exact Nat.zero_le _
  · exact Nat.zero_le _
  · have hloop := copyStringLoop_length byteAt (maxLen - 1) src
    omega

theorem copyStringFromUser_lt {addr : Nat} (h : addr ∈ copyStringFromUser byteAt src maxLen) :
    addr < kernelSpaceStart := by
  unfold copyStringFromUser at h
  split_ifs at h
  · cases h
  · cases h
  · exact copyStringReads_lt h

/-- A string that ends is not plain to the bound. -/
theorem not_plain_of_stop {k : Nat} (hk : EndsAt byteAt src k ∨ LeavesAt byteAt src k)
    (hlt : k < maxLen) : ¬Plain byteAt src maxLen := by
  intro hplain
  have hbyte := hplain k hlt
  rcases hk with hends | hleaves
  · exact hbyte.2 hends.2.2
  · exact Nat.not_lt.mpr hleaves.2 hbyte.1

theorem copyExact_of_ends {k : Nat} (hk : k < maxLen) (hends : EndsAt byteAt src k)
    (hret : copyStringTo byteAt src maxLen = (0, bytesFrom byteAt src k ++ [0#8])) :
    CopyExact byteAt src maxLen where
  zero := by simp only [hret, true_iff]; exact ⟨k, hk, hends⟩
  found := by
    intro n _ hn
    rw [hret, ends_unique (Or.inl hends) (Or.inl hn)]
  fault := by
    rw [hret]
    dsimp only
    refine iff_of_false (by decide) ?_
    rintro ⟨n, -, hleaves⟩
    exact not_ends_and_leaves hends hleaves
  long := by
    rw [hret]
    dsimp only
    exact iff_of_false (by decide) (not_plain_of_stop (Or.inl hends) hk)
  stored := copyStringTo_length (by omega)
  read _ h := copyStringFromUser_lt h

theorem copyExact_of_leaves {k : Nat} (hk : k < maxLen) (hleaves : LeavesAt byteAt src k)
    (hret : (copyStringTo byteAt src maxLen).1 = -eFault) : CopyExact byteAt src maxLen where
  zero := by
    rw [hret]
    refine iff_of_false (by decide) ?_
    rintro ⟨n, -, hends⟩
    exact not_ends_and_leaves hends hleaves
  found _ _ hends := absurd hleaves (not_ends_and_leaves hends)
  fault := by simp only [hret, true_iff]; exact ⟨k, hk, hleaves⟩
  long := by
    rw [hret]
    exact iff_of_false (by decide) (not_plain_of_stop (Or.inr hleaves) hk)
  stored := copyStringTo_length (by omega)
  read _ h := copyStringFromUser_lt h

theorem copyExact_of_plain (hpos : 0 < maxLen) (hplain : Plain byteAt src maxLen)
    (hret : (copyStringTo byteAt src maxLen).1 = -eNameTooLong) :
    CopyExact byteAt src maxLen where
  zero := by
    rw [hret]
    refine iff_of_false (by decide) ?_
    rintro ⟨n, hn, hends⟩
    exact not_plain_of_stop (Or.inl hends) hn hplain
  found n hn hends := absurd hplain (not_plain_of_stop (Or.inl hends) hn)
  fault := by
    rw [hret]
    refine iff_of_false (by decide) ?_
    rintro ⟨n, hn, hleaves⟩
    exact not_plain_of_stop (Or.inr hleaves) hn hplain
  long := by simp only [hret, true_iff]; exact hplain
  stored := copyStringTo_length hpos
  read _ h := copyStringFromUser_lt h

/-- The bound of the loop is one byte short: the copy is exact unless the string stops with
its `maxLen`-th byte.  A null pointer counts as kernel space. -/
theorem copy_string_exact_iff (byteAt : Nat → BitVec 8) (src : Nat) {maxLen : Nat}
    (hpos : 0 < maxLen) :
    CopyExact byteAt src maxLen ↔
      kernelSpaceStart ≤ src ∨
      (src ≠ 0 ∧ ¬EndsAt byteAt src (maxLen - 1) ∧ ¬LeavesAt byteAt src (maxLen - 1)) ∨
      (src = 0 ∧ ∃ n < maxLen, LeavesAt byteAt src n) := by
  by_cases hnull : src = 0
  · have hret : (copyStringTo byteAt src maxLen).1 = -eFault := by
      unfold copyStringTo
      rw [if_pos hnull]
    constructor
    · exact fun h => Or.inr (Or.inr ⟨hnull, h.fault.mp hret⟩)
    · rintro (hhigh | ⟨hne, -⟩ | ⟨-, n, hn, hleaves⟩)
      · subst hnull
        exact absurd hhigh (by decide)
      · exact absurd hnull hne
      · exact copyExact_of_leaves hn hleaves hret
  by_cases hhigh : kernelSpaceStart ≤ src
  · refine iff_of_true ?_ (Or.inl hhigh)
    have hleaves : LeavesAt byteAt src 0 := ⟨fun i hi => absurd hi (Nat.not_lt_zero i), hhigh⟩
    apply copyExact_of_leaves hpos hleaves
    unfold copyStringTo
    rw [if_neg hnull, if_pos hhigh]
  have hcopy := @copyStringTo_loop byteAt src maxLen hnull hhigh
  constructor
  · intro h
    refine Or.inr (Or.inl ⟨hnull, ?_⟩)
    rw [← not_or]
    intro hstop
    have hplain : Plain byteAt src (maxLen - 1) := hstop.elim And.left And.left
    have hlong := h.long.mp (by rw [hcopy, copyStringLoop_long hplain])
    exact not_plain_of_stop hstop (by omega) hlong
  · rintro (h | ⟨-, hends, hleaves⟩ | ⟨h, -⟩)
    · exact absurd h hhigh
    · rcases string_cases byteAt src maxLen with ⟨k, hk, hstop⟩ | ⟨k, hk, hstop⟩ | hplain
      · have hlt : k < maxLen - 1 := by
          have hne : k ≠ maxLen - 1 := by
            rintro rfl
            exact hends hstop
          omega
        exact copyExact_of_ends hk hstop (by rw [hcopy, copyStringLoop_ends hstop hlt])
      · have hlt : k < maxLen - 1 := by
          have hne : k ≠ maxLen - 1 := by
            rintro rfl
            exact hleaves hstop
          omega
        exact copyExact_of_leaves hk hstop (by rw [hcopy, copyStringLoop_leaves hstop hlt])
      · have hshort : Plain byteAt src (maxLen - 1) := fun i hi => hplain i (by omega)
        exact copyExact_of_plain hpos hplain (by rw [hcopy, copyStringLoop_long hshort])
    · exact absurd h hnull

/-- A memory with one NUL. -/
def nulAt (addr : Nat) : Nat → BitVec 8 := fun a => if a = addr then 0#8 else 0x78#8

theorem nulAt_plain {src n : Nat} (hsrc : src + n ≤ kernelSpaceStart) :
    Plain (nulAt (src + n)) src n := by
  intro i hi
  unfold nulAt
  rw [if_neg (by omega)]
  exact ⟨by omega, by decide⟩

theorem nulAt_ends {src n : Nat} (hsrc : src + n < kernelSpaceStart) :
    EndsAt (nulAt (src + n)) src n :=
  ⟨nulAt_plain hsrc.le, hsrc, if_pos rfl⟩

/-- A name of 255 bytes fits the buffer of 256 bytes with its NUL, and is refused. -/
theorem copy_string_refuses_longest : ¬ ∀ (byteAt : Nat → BitVec 8) (src maxLen : Nat),
    0 < maxLen → CopyExact byteAt src maxLen := by
  intro hall
  have hexact := hall (nulAt (4096 + 255)) 4096 256 (by decide)
  have hplain : Plain (nulAt (4096 + 255)) 4096 (256 - 1) := nulAt_plain (by decide)
  have hzero := hexact.zero.mpr ⟨255, by decide, nulAt_ends (by decide)⟩
  rw [copyStringTo_loop (by decide) (by decide), copyStringLoop_long hplain] at hzero
  cases hzero

/-- A name of 4 bytes. -/
theorem copy_string_exact_short : CopyExact (nulAt (4096 + 4)) 4096 256 ↔
    kernelSpaceStart ≤ 4096 ∨
    (4096 ≠ 0 ∧ ¬EndsAt (nulAt (4096 + 4)) 4096 (256 - 1) ∧
      ¬LeavesAt (nulAt (4096 + 4)) 4096 (256 - 1)) ∨
    (4096 = 0 ∧ ∃ n < 256, LeavesAt (nulAt (4096 + 4)) 4096 n) :=
  copy_string_exact_iff _ _ (by decide)

end Strings

end EnclaveOS
