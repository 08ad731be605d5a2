import EnclaveOS.Arm.ArmVmm

/-!
# ArmPmm - the page allocator of the ARM kernel

The bitmap of `arm_pmm.c` and its counter of free pages.  The calls run with interrupts off,
so each is one function; serial output is left out.
-/

namespace EnclaveOS

open PageWord

/-- `PMM_MAX_PAGES` of `arm_pmm.c`. -/
def armPmmMaxPages : Nat := 131072

/-- The clear bits below a limit. -/
def clearBits (bitmap : Nat → Bool) (total : Nat) : Nat :=
  (List.range total).countP fun f => !bitmap f

/-- The data of `arm_pmm.c`, where the counter of free pages is the number of clear bits. -/
@[ext]
structure ArmPmm where
  bitmap : Nat → Bool
  totalPages : Nat
  freePages : Nat
  allocs : Nat
  frees : Nat
  totalFits : totalPages ≤ armPmmMaxPages
  counted : freePages = clearBits bitmap totalPages

theorem clearBits_le (bitmap : Nat → Bool) (total : Nat) : clearBits bitmap total ≤ total :=
  List.countP_le_length.trans_eq List.length_range

theorem clearBits_succ (bitmap : Nat → Bool) (n : Nat) :
    clearBits bitmap (n + 1) = clearBits bitmap n + if bitmap n then 0 else 1 := by
  unfold clearBits
  rw [List.range_succ, List.countP_append, List.countP_singleton]
  cases bitmap n <;> rfl

theorem clearBits_congr {bitmap bitmap' : Nat → Bool} {total : Nat}
    (h : ∀ f < total, bitmap f = bitmap' f) : clearBits bitmap total = clearBits bitmap' total := by
  apply List.countP_congr
  intro f hf
  rw [h f (List.mem_range.mp hf)]

/-- One bit less is clear. -/
theorem clearBits_set {bitmap : Nat → Bool} {total f : Nat} (hf : f < total)
    (hclear : bitmap f = false) :
    clearBits (Function.update bitmap f true) total + 1 = clearBits bitmap total := by
  induction total with
  | zero => cases hf
  | succ n ih =>
    rw [clearBits_succ, clearBits_succ]
    by_cases hn : f = n
    · subst hn
      have hbelow : clearBits (Function.update bitmap f true) f = clearBits bitmap f :=
        clearBits_congr fun g hg => Function.update_of_ne (Nat.ne_of_lt hg) ..
      rw [hbelow, Function.update_self, hclear]
      simp
    · have hbelow := ih (by omega)
      rw [Function.update_of_ne (Ne.symm hn)]
      omega

/-- One bit more is clear. -/
theorem clearBits_clear {bitmap : Nat → Bool} {total f : Nat} (hf : f < total)
    (hset : bitmap f = true) :
    clearBits (Function.update bitmap f false) total = clearBits bitmap total + 1 := by
  have hback : clearBits (Function.update (Function.update bitmap f false) f true) total + 1 =
      clearBits (Function.update bitmap f false) total :=
    clearBits_set hf (Function.update_self ..)
  rw [Function.update_idem, ← hset, Function.update_eq_self] at hback
  exact hback.symm

namespace ArmPmm

/-- The first clear bit of a byte, `ctz32(~pmm_bitmap[i])`. -/
def freeBit (bitmap : Nat → Bool) (i : Nat) : Option Nat :=
  (List.range 8).find? fun bit => !bitmap (8 * i + bit)

/-- The scan of `arm_pmm_alloc_page`: a clear bit past the last page does not end it. -/
def scan (p : ArmPmm) : Option Nat :=
  (List.range ((p.totalPages + 7) / 8)).findSome? fun i =>
    (freeBit p.bitmap i).bind fun bit =>
      if 8 * i + bit < p.totalPages then some (8 * i + bit) else none

theorem scan_some {p : ArmPmm} {f : Nat} (h : p.scan = some f) :
    f < p.totalPages ∧ p.bitmap f = false := by
  obtain ⟨i, -, hi⟩ := List.exists_of_findSome?_eq_some h
  obtain ⟨bit, hbit, hf⟩ := Option.bind_eq_some_iff.mp hi
  split_ifs at hf with hlt
  cases hf
  exact ⟨hlt, by simpa using List.find?_some hbit⟩

/-- While a page is free the scan finds one. -/
theorem scan_isSome {p : ArmPmm} (h : p.freePages ≠ 0) : ∃ f, p.scan = some f := by
  rw [p.counted, clearBits, Ne, List.countP_eq_zero] at h
  push Not at h
  obtain ⟨f, hf, hclear⟩ := h
  rw [List.mem_range] at hf
  rw [← Option.isSome_iff_exists, scan, List.findSome?_isSome_iff]
  refine ⟨f / 8, List.mem_range.mpr (by omega), ?_⟩
  have hmem : f % 8 ∈ List.range 8 := List.mem_range.mpr (Nat.mod_lt _ (by omega))
  have hsplit : 8 * (f / 8) + f % 8 = f := Nat.div_add_mod f 8
  cases hbit : freeBit p.bitmap (f / 8) with
  | none =>
    have hset := List.find?_eq_none.mp hbit (f % 8) hmem
    rw [hsplit] at hset
    exact absurd hclear hset
  | some bit =>
    -- The first clear bit of the byte stands at or before this one.
    have hle : bit ≤ f % 8 := by
      by_contra hlt
      rw [freeBit, List.find?_range_eq_some] at hbit
      have hset := hbit.2.2 (f % 8) (by omega)
      rw [hsplit] at hset
      simp only [Bool.not_not] at hset
      rw [hset] at hclear
      cases hclear
    rw [Option.bind_some, if_pos (by omega)]
    rfl

/-- One page taken. -/
def take (p : ArmPmm) (f : Nat) (hf : f < p.totalPages ∧ p.bitmap f = false) : ArmPmm where
  bitmap := Function.update p.bitmap f true
  totalPages := p.totalPages
  freePages := p.freePages - 1
  allocs := wrap32 (p.allocs + 1)
  frees := p.frees
  totalFits := p.totalFits
  counted := by
    have hset := clearBits_set hf.1 hf.2
    rw [p.counted]
    omega

/-- One page given back. -/
def giveBack (p : ArmPmm) (f : Nat) (hf : f < p.totalPages ∧ p.bitmap f = true) : ArmPmm where
  bitmap := Function.update p.bitmap f false
  totalPages := p.totalPages
  freePages := p.freePages + 1
  allocs := p.allocs
  frees := wrap32 (p.frees + 1)
  totalFits := p.totalFits
  counted := by rw [clearBits_clear hf.1 hf.2, p.counted]

/-- `arm_pmm_alloc_page`. -/
def allocPage (p : ArmPmm) : ArmPmm × Word :=
  if p.freePages = 0 then (p, 0#32)
  else
    match h : p.scan with
    | none => (p, 0#32)
    | some f => (p.take f (scan_some h), frameAddr f)

/-- `arm_pmm_free_page`: a misaligned or unknown address and a free page are only reported. -/
def freePage (p : ArmPmm) (physAddr : Word) : ArmPmm :=
  if physAddr.toNat % 4096 ≠ 0 then p
  else
    if h : frameOf physAddr < p.totalPages ∧ p.bitmap (frameOf physAddr) = true then
      p.giveBack (frameOf physAddr) h
    else p

/-- `arm_pmm_get_free_pages`. -/
def getFreePages (p : ArmPmm) : Nat := p.freePages

/-- `arm_pmm_init` for a machine of `ramSize` bytes: all pages but those of the first
megabyte are free. -/
def init (ramSize : Nat) : ArmPmm where
  bitmap f := !(decide (256 ≤ f) && decide (f < min (ramSize / 4096) armPmmMaxPages))
  totalPages := min (ramSize / 4096) armPmmMaxPages
  freePages := min (ramSize / 4096) armPmmMaxPages - 256
  allocs := 0
  frees := 0
  totalFits := Nat.min_le_right ..
  counted := by
    generalize min (ramSize / 4096) armPmmMaxPages = total
    have hcount : ∀ n ≤ total,
        clearBits (fun f => !(decide (256 ≤ f) && decide (f < total))) n = n - 256 := by
      intro n
      induction n with
      | zero => exact fun _ => rfl
      | succ n ih =>
        intro hn
        rw [clearBits_succ, ih (by omega)]
        have hlt : n < total := hn
        by_cases h : 256 ≤ n
        · simp [h, hlt]
          omega
        · simp [h]
          omega
    exact (hcount total (le_refl _)).symm

/-- While a page is free an allocation takes the one that the scan finds. -/
theorem allocPage_of_scan {p : ArmPmm} (hfree : p.freePages ≠ 0) {f : Nat} (hf : p.scan = some f) :
    p.allocPage = (p.take f (scan_some hf), frameAddr f) := by
  unfold allocPage
  rw [if_neg hfree]
  split
  · rename_i hnone
    rw [hnone] at hf
    cases hf
  · rename_i g hg
    obtain rfl : g = f := Option.some.inj (hg.symm.trans hf)
    rfl

/-- An allocation finds no page free, or takes one. -/
theorem allocPage_cases (p : ArmPmm) :
    (p.freePages = 0 ∧ p.allocPage = (p, 0#32)) ∨
      ∃ f, ∃ h : f < p.totalPages ∧ p.bitmap f = false,
        p.allocPage = (p.take f h, frameAddr f) := by
  by_cases hfree : p.freePages = 0
  · exact Or.inl ⟨hfree, if_pos hfree⟩
  · obtain ⟨f, hf⟩ := scan_isSome hfree
    exact Or.inr ⟨f, scan_some hf, allocPage_of_scan hfree hf⟩

/-- A page that is in use. -/
def Held (p : ArmPmm) (f : Nat) : Prop := f < p.totalPages ∧ p.bitmap f = true

theorem totalPages_lt (p : ArmPmm) : p.totalPages < 1048576 :=
  lt_of_le_of_lt p.totalFits (by decide)

theorem take_bitmap_of_ne {p : ArmPmm} {f g : Nat} (h : f < p.totalPages ∧ p.bitmap f = false)
    (hne : g ≠ f) : (p.take f h).bitmap g = p.bitmap g :=
  Function.update_of_ne hne ..

theorem held_take {p : ArmPmm} {f : Nat} (h : f < p.totalPages ∧ p.bitmap f = false) (g : Nat) :
    (p.take f h).Held g ↔ g = f ∨ p.Held g := by
  by_cases hg : g = f
  · subst hg
    simp [Held, take, h.1]
  · simp [Held, take, hg]

theorem held_freePage (p : ArmPmm) {f : Nat} (hf : f < 1048576) (g : Nat) :
    (p.freePage (frameAddr f)).Held g ↔ p.Held g ∧ g ≠ f := by
  unfold freePage
  rw [frameOf_frameAddr hf, frameAddr_toNat hf, Nat.mul_mod_left, if_neg (by simp)]
  by_cases h : f < p.totalPages ∧ p.bitmap f = true
  · rw [dif_pos h]
    by_cases hg : g = f
    · simp [Held, giveBack, hg]
    · simp [Held, giveBack, hg]
  · rw [dif_neg h]
    constructor
    · intro hheld
      refine ⟨hheld, ?_⟩
      rintro rfl
      exact h hheld
    · exact And.left

/-- The allocator of `arm_pmm.c`. -/
def source : PageSource ArmPmm := ⟨allocPage, freePage⟩

@[simp] theorem source_allocPage (p : ArmPmm) : source.allocPage p = p.allocPage := rfl
@[simp] theorem source_freePage (p : ArmPmm) (addr : Word) : source.freePage p addr = p.freePage addr := rfl

/-- A page handed out was not in use, and stays in use until it is given back. -/
theorem lawful : source.Lawful Held := by
  refine ⟨fun p => ?_, fun p f g hf => held_freePage p hf g⟩
  rcases allocPage_cases p with ⟨-, h⟩ | ⟨f, hf, h⟩
  · left
    simp [source, h]
  · have hlt : f < 1048576 := hf.1.trans p.totalPages_lt
    by_cases hzero : f = 0
    · left
      subst hzero
      refine ⟨by simp [source, h, frameAddr], fun g hg => ?_⟩
      simp only [source, h]
      exact (held_take hf g).mpr (Or.inr hg)
    · right
      refine ⟨f, by omega, hlt, fun hheld => ?_, by simp [source, h], fun g => ?_⟩
      · rw [hheld.2] at hf
        cases hf.2
      · simp only [source, h]
        exact held_take hf g

end ArmPmm
end EnclaveOS
