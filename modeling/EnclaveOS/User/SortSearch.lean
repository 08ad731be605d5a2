import EnclaveOS.Config
import EnclaveOS.Foundation.ByteMemory
import EnclaveOS.Foundation.HeapSort

/-!
# SortSearch - qsort and bsearch of the user library

`qsort` and `bsearch` of `user_libc.c` on the bytes of an array, with the pointers
that they compare.  An `int` that would pass its largest value has no result.  The sort is the
heap sort of the library on the elements.
-/

namespace EnclaveOS

open ByteMemory HeapSort

/-- `arr + i * size`. -/
def elementPtr (arr size i : Nat) : Nat := wrap32 (arr + wrap32 (i * size))

/-- The bytes of the element at a pointer. -/
def elementAt (size : Nat) (mem : Bytes) (p : Nat) : Fin size → BitVec 8 :=
  fun k => mem (wrap32 (p + k))

/-- The bytes of an element. -/
abbrev Element (size : Nat) := Fin size → BitVec 8

/-- An `int` that is not negative. -/
def intNat (n : Nat) : Option Nat := if n < 2147483648 then some n else none

/-- The memory, and the pairs of pointers that were compared. -/
structure SortState where
  mem : Bytes
  compared : List (Nat × Nat)

section Sorting

variable {size : Nat} (cmp : Element size → Element size → Int) (arr : Nat)

/-- `cmp(p, q)`. -/
def SortState.compare (s : SortState) (p q : Nat) : Int × SortState :=
  (cmp (elementAt size s.mem p) (elementAt size s.mem q),
    { s with compared := (p, q) :: s.compared })

/-- One round of `swap_elements`. -/
def swapByte (a b : Nat) (mem : Bytes) (i : Nat) : Bytes :=
  Function.update (Function.update mem (wrap32 (a + i)) (mem (wrap32 (b + i)))) (wrap32 (b + i))
    (mem (wrap32 (a + i)))

/-- `swap_elements`. -/
def swapElements (a b size : Nat) (mem : Bytes) : Bytes :=
  (List.range size).foldl (swapByte a b) mem

/-- The larger one of `root` and its first child. -/
def SortState.larger (s : SortState) (root child : Nat) : Nat × SortState :=
  let (res, s) := s.compare cmp (elementPtr arr size root) (elementPtr arr size child)
  (if res < 0 then child else root, s)

/-- `swap` after both tests of a round. -/
def SortState.largest (s : SortState) (last : Int) (root child next : Nat) : Nat × SortState :=
  let (swap, s) := s.larger cmp arr root child
  if next ≤ last then
    let (res, s) := s.compare cmp (elementPtr arr size swap) (elementPtr arr size next)
    (if res < 0 then next else swap, s)
  else (swap, s)

/-- The loop of `sift_down`, with a bound on its rounds. -/
def siftDownAt (last : Int) : (rounds root : Nat) → SortState → Option SortState
  | 0, _, _ => none
  | rounds + 1, root, s => do
    let child ← intNat (root * 2 + 1)
    if child ≤ last then do
      let next ← intNat (child + 1)
      let (swap, s) := s.largest cmp arr last root child next
      if swap = root then some s
      else
        let mem := swapElements (elementPtr arr size root) (elementPtr arr size swap) size s.mem
        siftDownAt last rounds swap { s with mem := mem }
    else some s

/-- `qsort`. -/
def qsort (nmemb : Nat) (mem : Bytes) : Option SortState :=
  if nmemb < 2 ∨ size = 0 then some ⟨mem, []⟩
  else do
    let s ← (List.range (int32 ((nmemb - 2) / 2) + 1).toNat).reverse.foldlM
      (fun s start => siftDownAt cmp arr (int32 (nmemb - 1)) nmemb start s) ⟨mem, []⟩
    (List.range (int32 (nmemb - 1)).toNat).reverse.foldlM
      (fun (s : SortState) i =>
        let mem := swapElements arr (elementPtr arr size (i + 1)) size s.mem
        siftDownAt cmp arr i nmemb 0 { s with mem := mem }) s

end Sorting

/-- The pointers that were compared with the key, and the pointer that is returned. -/
structure SearchResult where
  compared : List Nat
  found : Option Nat

/-- The loop of `bsearch`, with a bound on its rounds; `cmp` compares the key. -/
def bsearchLoop {size : Nat} (cmp : Element size → Int) (mem : Bytes) (arr : Nat) :
    (rounds low high : Nat) → Option SearchResult
  | 0, _, _ => none
  | rounds + 1, low, high =>
    if low < high then
      let mid := wrap32 (low + (high - low) / 2)
      let p := elementPtr arr size mid
      let res := cmp (elementAt size mem p)
      if res = 0 then some ⟨[p], some p⟩
      else
        let rest :=
          if 0 < res then bsearchLoop cmp mem arr rounds (wrap32 (mid + 1)) high
          else bsearchLoop cmp mem arr rounds low mid
        rest.map fun r => { r with compared := p :: r.compared }
    else some ⟨[], none⟩

/-- `bsearch`. -/
def bsearch {size : Nat} (cmp : Element size → Int) (mem : Bytes) (arr rounds nmemb : Nat) :
    Option SearchResult :=
  bsearchLoop cmp mem arr rounds 0 nmemb

/-- The sign of a comparison function is that of a total preorder. -/
structure IsComparison {α : Type*} (cmp : α → α → Int) : Prop where
  flip : ∀ a b, cmp a b < 0 ↔ 0 < cmp b a
  trans : ∀ a b c, cmp a b ≤ 0 → cmp b c ≤ 0 → cmp a c ≤ 0

/-- The elements of an array of `nmemb` elements; what is behind them does not matter. -/
def items (size arr nmemb : Nat) (mem : Bytes) (i : Nat) : Element size :=
  if i < nmemb then fun k => mem (arr + i * size + k) else fun _ => 0

/-- The pointer to an element of the array. -/
def InArray (arr size nmemb p : Nat) : Prop := ∃ i < nmemb, p = arr + i * size

/-- An array in the address space. -/
structure ArrayFits (arr size nmemb : Nat) : Prop where
  start : arr < 4294967296
  fits : arr + nmemb * size ≤ 4294967296

variable {arr size nmemb i j : Nat}

theorem IsComparison.preorder {α : Type*} {cmp : α → α → Int} (h : IsComparison cmp) :
    TotalPreorder fun a b => cmp a b ≤ 0 where
  total a b := by
    by_contra hnot
    have hflip := h.flip b a
    omega
  trans := h.trans _ _ _

namespace ArrayFits

theorem element_le (size : Nat) (hi : i < nmemb) : i * size + size ≤ nmemb * size := by
  rw [← Nat.succ_mul]
  exact Nat.mul_le_mul_right size hi

theorem ptr (h : ArrayFits arr size nmemb) (hi : i < nmemb) :
    elementPtr arr size i = arr + i * size := by
  have hle := element_le size hi
  have hfits := h.fits
  have hstart := h.start
  unfold elementPtr wrap32
  by_cases hsize : size = 0
  · subst hsize
    simpa using hstart
  · rw [Nat.mod_eq_of_lt (by omega), Nat.mod_eq_of_lt (by omega)]

theorem element (h : ArrayFits arr size nmemb) (mem : Bytes) (hi : i < nmemb) :
    elementAt size mem (elementPtr arr size i) = items size arr nmemb mem i := by
  have hle := element_le size hi
  have hfits := h.fits
  funext k
  have hk := k.isLt
  rw [items, if_pos hi, elementAt, h.ptr hi, wrap32, Nat.mod_eq_of_lt (by omega)]

end ArrayFits

/-- The loop of `swap_elements` on elements that do not overlap. -/
theorem foldl_swapByte {a b : Nat} (ha : a + size ≤ 4294967296) (hb : b + size ≤ 4294967296)
    (hapart : a + size ≤ b ∨ b + size ≤ a) (mem : Bytes) {n : Nat} (hn : n ≤ size) (x : Nat) :
    (List.range n).foldl (swapByte a b) mem x =
      if a ≤ x ∧ x < a + n then mem (b + (x - a))
      else if b ≤ x ∧ x < b + n then mem (a + (x - b)) else mem x := by
  induction n generalizing x with
  | zero =>
    rw [if_neg (by omega), if_neg (by omega)]
    rfl
  | succ n ih =>
    have hwrap : ∀ c, c + size ≤ 4294967296 → wrap32 (c + n) = c + n := fun c hc =>
      Nat.mod_eq_of_lt (by omega)
    have hleft := ih (by omega) (a + n)
    have hright := ih (by omega) (b + n)
    rw [if_neg (by omega), if_neg (by omega)] at hleft hright
    rw [List.range_succ, List.foldl_append, List.foldl_cons, List.foldl_nil, swapByte, hwrap a ha,
      hwrap b hb, hleft, hright, Function.update_apply, Function.update_apply, ih (by omega) x]
    by_cases hxb : x = b + n
    · subst hxb
      rw [if_pos rfl, if_neg (by omega), if_pos (by omega), Nat.add_sub_cancel_left]
    · rw [if_neg hxb]
      by_cases hxa : x = a + n
      · subst hxa
        rw [if_pos rfl, if_pos (by omega), Nat.add_sub_cancel_left]
      · have hina : (a ≤ x ∧ x < a + (n + 1)) ↔ a ≤ x ∧ x < a + n := by omega
        have hinb : (b ≤ x ∧ x < b + (n + 1)) ↔ b ≤ x ∧ x < b + n := by omega
        simp only [if_neg hxa, hina, hinb]

theorem elements_apart (arr size : Nat) (hij : i < j) : arr + i * size + size ≤ arr + j * size := by
  have hle : i * size + size ≤ j * size := ArrayFits.element_le size hij
  omega

theorem swapElements_items (h : ArrayFits arr size nmemb) (hi : i < nmemb) (hj : j < nmemb)
    (hne : i ≠ j) (mem : Bytes) :
    items size arr nmemb (swapElements (elementPtr arr size i) (elementPtr arr size j) size mem) =
      exchange (items size arr nmemb mem) i j := by
  have hfits := h.fits
  have hile := ArrayFits.element_le size hi
  have hjle := ArrayFits.element_le size hj
  have hapart : arr + i * size + size ≤ arr + j * size ∨ arr + j * size + size ≤ arr + i * size :=
    (Nat.lt_or_gt_of_ne hne).imp (elements_apart arr size) (elements_apart arr size)
  have hbyte := foldl_swapByte (a := arr + i * size) (b := arr + j * size) (by omega) (by omega)
    hapart mem le_rfl
  funext k
  rw [h.ptr hi, h.ptr hj]
  by_cases hk : k < nmemb
  · have hkitem : ∀ mem, items size arr nmemb mem k =
        fun l : Fin size => mem (arr + k * size + l) :=
      fun mem => if_pos hk
    rw [hkitem]
    funext l
    have hl := l.isLt
    unfold swapElements
    rw [hbyte]
    by_cases hki : k = i
    · subst hki
      rw [if_pos (by omega), exchange_left, items, if_pos hj]
      congr 1
      omega
    · have hkapart := (Nat.lt_or_gt_of_ne hki).imp (elements_apart arr size)
        (elements_apart arr size)
      rw [if_neg (by omega)]
      by_cases hkj : k = j
      · subst hkj
        rw [if_pos (by omega), exchange_right, items, if_pos hi]
        congr 1
        omega
      · have hkapart' := (Nat.lt_or_gt_of_ne hkj).imp (elements_apart arr size)
          (elements_apart arr size)
        rw [if_neg (by omega), exchange_of_ne hki hkj, hkitem]
  · have hbehind : ∀ mem, items size arr nmemb mem k = fun _ => 0 := fun mem => if_neg hk
    rw [hbehind, exchange_of_ne (by omega) (by omega), hbehind]

theorem swapElements_outside (h : ArrayFits arr size nmemb) (hi : i < nmemb) (hj : j < nmemb)
    (hne : i ≠ j) (mem : Bytes) {x : Nat} (hx : x < arr ∨ arr + nmemb * size ≤ x) :
    swapElements (elementPtr arr size i) (elementPtr arr size j) size mem x = mem x := by
  have hfits := h.fits
  have hile := ArrayFits.element_le size hi
  have hjle := ArrayFits.element_le size hj
  have hapart : arr + i * size + size ≤ arr + j * size ∨ arr + j * size + size ≤ arr + i * size :=
    (Nat.lt_or_gt_of_ne hne).imp (elements_apart arr size) (elements_apart arr size)
  unfold swapElements
  rw [h.ptr hi, h.ptr hj, foldl_swapByte (by omega) (by omega) hapart mem le_rfl,
    if_neg (by omega), if_neg (by omega)]

section Sifting

variable {nmemb : Nat} {mem₀ : Bytes} {s : SortState} {f : Nat → Element size} {i j : Nat}
  {cmp : Element size → Element size → Int}

/-- The array holds the elements `f`, nothing else is written, and only elements of the array
were compared. -/
structure Sorting (arr size nmemb : Nat) (mem₀ : Bytes) (s : SortState)
    (f : Nat → Element size) : Prop where
  items : items size arr nmemb s.mem = f
  outside : ∀ x, x < arr ∨ arr + nmemb * size ≤ x → s.mem x = mem₀ x
  compared : ∀ c ∈ s.compared, InArray arr size nmemb c.1 ∧ InArray arr size nmemb c.2

/-- The order of a comparison function. -/
abbrev notAbove (cmp : Element size → Element size → Int) (a b : Element size) : Prop :=
  cmp a b ≤ 0

namespace Sorting

variable (cmp) in
theorem compare (h : Sorting arr size nmemb mem₀ s f) (harr : ArrayFits arr size nmemb)
    (hi : i < nmemb) (hj : j < nmemb) :
    (s.compare cmp (elementPtr arr size i) (elementPtr arr size j)).1 = cmp (f i) (f j) ∧
      Sorting arr size nmemb mem₀
        (s.compare cmp (elementPtr arr size i) (elementPtr arr size j)).2 f := by
  constructor
  · simp only [SortState.compare, harr.element s.mem hi, harr.element s.mem hj, h.items]
  · refine ⟨h.items, h.outside, ?_⟩
    intro c hc
    cases List.mem_cons.mp hc with
    | inl hnew =>
      rw [hnew]
      exact ⟨⟨i, hi, harr.ptr hi⟩, ⟨j, hj, harr.ptr hj⟩⟩
    | inr hold => exact h.compared c hold

theorem swap (h : Sorting arr size nmemb mem₀ s f) (harr : ArrayFits arr size nmemb)
    (hi : i < nmemb) (hj : j < nmemb) (hne : i ≠ j) :
    Sorting arr size nmemb mem₀
      { s with mem := swapElements (elementPtr arr size i) (elementPtr arr size j) size s.mem }
      (exchange f i j) where
  items := by
    have hitems := swapElements_items harr hi hj hne s.mem
    rw [h.items] at hitems
    exact hitems
  outside x hx := (swapElements_outside harr hi hj hne s.mem hx).trans (h.outside x hx)
  compared := h.compared

theorem larger (h : Sorting arr size nmemb mem₀ s f) (harr : ArrayFits arr size nmemb)
    (hcmp : IsComparison cmp) {root : Nat} (hroot : root * 2 + 1 < nmemb) :
    (s.larger cmp arr root (root * 2 + 1)).1 = HeapSort.larger (notAbove cmp) f root ∧
      Sorting arr size nmemb mem₀ (s.larger cmp arr root (root * 2 + 1)).2 f := by
  have hparent : root < nmemb := by omega
  obtain ⟨hres, hs⟩ := h.compare cmp harr hparent hroot
  refine ⟨?_, hs⟩
  have hflip := hcmp.flip (f root) (f (root * 2 + 1))
  simp only [SortState.larger, HeapSort.larger, notAbove, hres]
  split_ifs with hless hle
  · omega
  · rfl
  · rfl
  · omega

theorem largest (h : Sorting arr size nmemb mem₀ s f) (harr : ArrayFits arr size nmemb)
    (hcmp : IsComparison cmp) {root last : Nat} (hroot : root * 2 + 1 ≤ last)
    (hlast : last < nmemb) :
    (s.largest cmp arr last root (root * 2 + 1) (root * 2 + 2)).1 =
        HeapSort.largest (notAbove cmp) last f root ∧
      Sorting arr size nmemb mem₀
        (s.largest cmp arr last root (root * 2 + 1) (root * 2 + 2)).2 f := by
  have hchild : root * 2 + 1 < nmemb := by omega
  obtain ⟨hfirst, hs⟩ := h.larger harr hcmp hchild
  have hin : HeapSort.larger (notAbove cmp) f root < nmemb := by
    unfold HeapSort.larger
    split_ifs <;> omega
  unfold SortState.largest HeapSort.largest
  by_cases hnext : root * 2 + 2 ≤ last
  · have hsecond : root * 2 + 2 < nmemb := by omega
    obtain ⟨hres, hs'⟩ := hs.compare cmp harr hin hsecond
    have hflip := hcmp.flip (f (HeapSort.larger (notAbove cmp) f root)) (f (root * 2 + 2))
    have hnext' : ((root * 2 + 2 : Nat) : Int) ≤ last := by exact_mod_cast hnext
    simp only [hfirst, if_pos hnext', hres, hnext, true_and]
    refine ⟨?_, hs'⟩
    split_ifs with hless hle
    · omega
    · rfl
    · rfl
    · omega
  · have hnext' : ¬((root * 2 + 2 : Nat) : Int) ≤ last := by exact_mod_cast hnext
    simp only [hfirst, if_neg hnext', hnext, false_and, if_false]
    exact ⟨trivial, hs⟩

end Sorting

/-- `sift_down` sinks an element. -/
theorem siftDownAt_eq (harr : ArrayFits arr size nmemb) (hcmp : IsComparison cmp)
    (hcount : nmemb ≤ 1073741824) {last : Nat} (hlast : last < nmemb) {rounds root : Nat}
    (hroot : root < nmemb) (hrounds : last < root + rounds) (hpos : 0 < rounds)
    (h : Sorting arr size nmemb mem₀ s f) :
    ∃ s', siftDownAt cmp arr last rounds root s = some s' ∧
      Sorting arr size nmemb mem₀ s' (siftDown (notAbove cmp) last rounds root f) := by
  induction rounds generalizing root s f with
  | zero => omega
  | succ rounds ih =>
    have hchild : intNat (root * 2 + 1) = some (root * 2 + 1) := if_pos (by omega)
    rw [siftDownAt, siftDown, hchild, Option.bind_eq_bind, Option.bind_some]
    by_cases hin : root * 2 + 1 ≤ last
    · have hin' : ((root * 2 + 1 : Nat) : Int) ≤ last := by exact_mod_cast hin
      have hnext : intNat (root * 2 + 1 + 1) = some (root * 2 + 2) := if_pos (by omega)
      obtain ⟨hswap, hs⟩ := h.largest harr hcmp hin hlast
      rw [if_pos hin', if_pos hin, hnext, Option.bind_some]
      simp only [hswap]
      by_cases hstay : HeapSort.largest (notAbove cmp) last f root = root
      · rw [if_pos hstay, if_pos hstay]
        exact ⟨_, rfl, hs⟩
      · rw [if_neg hstay, if_neg hstay]
        obtain ⟨hm, hm_last⟩ := (largest_cases hin).resolve_left hstay
        have hlt := hm.lt
        exact ih (by omega) (by omega) (by omega) (hs.swap harr hroot (by omega) (Ne.symm hstay))
    · have hin' : ¬((root * 2 + 1 : Nat) : Int) ≤ last := by exact_mod_cast hin
      rw [if_neg hin', if_neg hin]
      exact ⟨_, rfl, h⟩

/-- A loop whose rounds keep to the array. -/
theorem Sorting.foldlM (step : SortState → Nat → Option SortState)
    (g : (Nat → Element size) → Nat → Nat → Element size) {l : List Nat}
    (hstep : ∀ s f, ∀ i ∈ l, Sorting arr size nmemb mem₀ s f →
      ∃ s', step s i = some s' ∧ Sorting arr size nmemb mem₀ s' (g f i))
    (h : Sorting arr size nmemb mem₀ s f) :
    ∃ s', l.foldlM step s = some s' ∧ Sorting arr size nmemb mem₀ s' (l.foldl g f) := by
  induction l generalizing s f with
  | nil => exact ⟨s, rfl, h⟩
  | cons i l ih =>
    obtain ⟨s', hs', h'⟩ := hstep s f i List.mem_cons_self h
    rw [List.foldlM_cons, hs', List.foldl_cons]
    exact ih (fun s f k hk => hstep s f k (List.mem_cons_of_mem i hk)) h'

/-- Both loops of `qsort`. -/
theorem qsort_eq (harr : ArrayFits arr size nmemb) (hcmp : IsComparison cmp)
    (hcount : nmemb ≤ 1073741824) (hsize : size ≠ 0) (htwo : 2 ≤ nmemb) (mem : Bytes) :
    ∃ s, qsort cmp arr nmemb mem = some s ∧
      Sorting arr size nmemb mem s (unheap (notAbove cmp) nmemb (nmemb - 1)
        (buildHeap (notAbove cmp) (nmemb - 1) nmemb ((nmemb - 2) / 2 + 1)
          (items size arr nmemb mem))) := by
  have hint : ∀ n < nmemb, int32 n = n := fun n hn => if_pos (by omega)
  have hparents : (int32 ((nmemb - 2) / 2) + 1).toNat = (nmemb - 2) / 2 + 1 := by
    rw [hint _ (by omega)]
    omega
  have hlast : (int32 (nmemb - 1)).toNat = nmemb - 1 := by
    rw [hint _ (by omega)]
    omega
  have hstart : Sorting arr size nmemb mem ⟨mem, []⟩ (items size arr nmemb mem) :=
    ⟨rfl, fun _ _ => rfl, fun _ hc => absurd hc (List.not_mem_nil)⟩
  -- the first loop makes the heap
  obtain ⟨s₁, hs₁, h₁⟩ := hstart.foldlM (l := (List.range ((nmemb - 2) / 2 + 1)).reverse)
    (fun s start => siftDownAt cmp arr (int32 (nmemb - 1)) nmemb start s)
    (fun f start => siftDown (notAbove cmp) (nmemb - 1) nmemb start f) (by
      intro s f start hmem h
      have hlt := List.mem_range.mp (List.mem_reverse.mp hmem)
      rw [hint _ (by omega)]
      exact siftDownAt_eq harr hcmp hcount (by omega) (by omega) (by omega) (by omega) h)
  -- the second one takes it apart
  obtain ⟨s₂, hs₂, h₂⟩ := h₁.foldlM (l := (List.range (nmemb - 1)).reverse)
    (fun s i => siftDownAt cmp arr i nmemb 0
      { s with mem := swapElements arr (elementPtr arr size (i + 1)) size s.mem })
    (fun f i => siftDown (notAbove cmp) i nmemb 0 (exchange f 0 (i + 1))) (by
      intro s f i hmem h
      have hlt := List.mem_range.mp (List.mem_reverse.mp hmem)
      have hswap := h.swap harr (i := 0) (j := i + 1) (by omega) (by omega) (by omega)
      have hfirst : elementPtr arr size 0 = arr := by
        rw [harr.ptr (by omega), Nat.zero_mul, Nat.add_zero]
      rw [hfirst] at hswap
      exact siftDownAt_eq harr hcmp hcount (by omega) (by omega) (by omega) (by omega) hswap)
  refine ⟨s₂, ?_, h₂⟩
  unfold qsort
  rw [if_neg (by omega), hparents, hlast, hs₁, Option.bind_eq_bind, Option.bind_some]
  exact hs₂

end Sifting

/-- `qsort` sorts: the elements are a permutation of the ones before, consecutive elements are
in order, nothing outside the array is written, and only its elements are compared. -/
theorem qsort_sorts {size : Nat} (cmp : Element size → Element size → Int) (arr nmemb : Nat)
    (mem : Bytes) (hcount : nmemb ≤ 1073741824) (hsize : 1 ≤ size)
    (harr : ArrayFits arr size nmemb) (hcmp : IsComparison cmp) :
    ∃ s, qsort cmp arr nmemb mem = some s ∧
      (∃ σ : Equiv.Perm Nat, (∀ k, nmemb ≤ k → σ k = k) ∧
        ∀ i < nmemb, elementAt size s.mem (elementPtr arr size i) =
          elementAt size mem (elementPtr arr size (σ i))) ∧
      (∀ i, i + 1 < nmemb →
        cmp (elementAt size s.mem (elementPtr arr size i))
          (elementAt size s.mem (elementPtr arr size (i + 1))) ≤ 0) ∧
      (∀ x, x < arr ∨ arr + nmemb * size ≤ x → s.mem x = mem x) ∧
      ∀ c ∈ s.compared, InArray arr size nmemb c.1 ∧ InArray arr size nmemb c.2 := by
  by_cases htwo : nmemb < 2
  · refine ⟨⟨mem, []⟩, if_pos (Or.inl htwo), ⟨Equiv.refl Nat, fun _ _ => rfl, fun _ _ => rfl⟩,
      ?_, fun _ _ => rfl, fun c hc => absurd hc (List.not_mem_nil)⟩
    omega
  · have hle := hcmp.preorder
    obtain ⟨s, hs, h⟩ := qsort_eq harr hcmp hcount (by omega) (by omega) mem
    have hbuilt := buildHeap_rearranged (notAbove cmp) (nmemb - 1) nmemb
      ((nmemb - 2) / 2 + 1) (items size arr nmemb mem)
    have hperm := hbuilt.trans (unheap_rearranged (notAbove cmp) nmemb (nmemb - 1) _)
    rw [← h.items, Nat.sub_add_cancel (by omega)] at hperm
    obtain ⟨σ, hfixed, hitems⟩ := hperm
    have hσ : ∀ i < nmemb, σ i < nmemb := by
      intro i hi
      by_contra hnot
      have heq := σ.injective (hfixed (σ i) (Nat.le_of_not_lt hnot))
      omega
    have hlast : nmemb - 1 < nmemb := by omega
    have hleaves : nmemb - 1 < ((nmemb - 2) / 2 + 1) * 2 + 1 := by omega
    have hheap := buildHeap_heap hle hlast _ (isHeap_of_leaves hleaves (items size arr nmemb mem))
    have hhalf : HalfSorted (notAbove cmp) nmemb (nmemb - 1) _ := ⟨hheap, by omega, by omega⟩
    have hsorted := unheap_sorted hle hlast.le hhalf
    rw [← h.items] at hsorted
    refine ⟨s, hs, ⟨σ, hfixed, ?_⟩, ?_, h.outside, h.compared⟩
    · intro i hi
      rw [harr.element s.mem hi, harr.element mem (hσ i hi), hitems]
      rfl
    · intro i hi
      rw [harr.element s.mem (by omega), harr.element s.mem hi]
      exact hsorted i (i + 1) (by omega) hi

/-- The first byte decides. -/
def compareFirst (a b : Element 1) : Int := ((a 0).toNat : Int) - (b 0).toNat

theorem qsort_sorts_bytes : ∃ s, qsort compareFirst 4096 3 (fun x => (10 - x : Nat)) = some s ∧
    (∃ σ : Equiv.Perm Nat, (∀ k, 3 ≤ k → σ k = k) ∧
      ∀ i < 3, elementAt 1 s.mem (elementPtr 4096 1 i) =
        elementAt 1 (fun x => (10 - x : Nat)) (elementPtr 4096 1 (σ i))) ∧
    (∀ i, i + 1 < 3 →
      compareFirst (elementAt 1 s.mem (elementPtr 4096 1 i))
        (elementAt 1 s.mem (elementPtr 4096 1 (i + 1))) ≤ 0) ∧
    (∀ x, x < 4096 ∨ 4096 + 3 * 1 ≤ x → s.mem x = (10 - x : Nat)) ∧
    ∀ c ∈ s.compared, InArray 4096 1 3 c.1 ∧ InArray 4096 1 3 c.2 :=
  qsort_sorts compareFirst 4096 3 _ (by omega) le_rfl ⟨by omega, by omega⟩
    ⟨fun a b => by unfold compareFirst; omega, fun a b c => by unfold compareFirst; omega⟩

section Searching

variable {size : Nat} {cmp : Element size → Int} {mem : Bytes} {arr nmemb : Nat}

/-- What `bsearch` promises: elements of the array are compared, one that compares equal is
found, or there is none. -/
structure Searched (cmp : Element size → Int) (mem : Bytes) (arr nmemb : Nat)
    (r : SearchResult) : Prop where
  compared : ∀ p ∈ r.compared, ∃ i < nmemb, p = elementPtr arr size i
  found : ∀ p, r.found = some p →
    (∃ i < nmemb, p = elementPtr arr size i) ∧ cmp (elementAt size mem p) = 0
  missing : r.found = none → ∀ i < nmemb, cmp (elementAt size mem (elementPtr arr size i)) ≠ 0

theorem Searched.next {r : SearchResult} (h : Searched cmp mem arr nmemb r) {i : Nat}
    (hi : i < nmemb) :
    Searched cmp mem arr nmemb { r with compared := elementPtr arr size i :: r.compared } where
  compared p hp := by
    cases List.mem_cons.mp hp with
    | inl hnew => exact ⟨i, hi, hnew⟩
    | inr hold => exact h.compared p hold
  found := h.found
  missing := h.missing

/-- Everything before `low` is too small, everything from `high` on is too large. -/
theorem bsearchLoop_searched
    (hsmall : ∀ i j, i ≤ j → j < nmemb → 0 < cmp (elementAt size mem (elementPtr arr size j)) →
      0 < cmp (elementAt size mem (elementPtr arr size i)))
    (hlarge : ∀ i j, i ≤ j → j < nmemb → cmp (elementAt size mem (elementPtr arr size i)) < 0 →
      cmp (elementAt size mem (elementPtr arr size j)) < 0)
    (hcount : nmemb < 4294967296) {rounds low high : Nat} (hhigh : high ≤ nmemb)
    (hrounds : high < low + rounds) (hpos : 0 < rounds)
    (hlow : ∀ i, i < low → i < nmemb → 0 < cmp (elementAt size mem (elementPtr arr size i)))
    (habove : ∀ i, high ≤ i → i < nmemb →
      cmp (elementAt size mem (elementPtr arr size i)) < 0) :
    ∃ r, bsearchLoop cmp mem arr rounds low high = some r ∧ Searched cmp mem arr nmemb r := by
  induction rounds generalizing low high with
  | zero => omega
  | succ rounds ih =>
    rw [bsearchLoop]
    by_cases hopen : low < high
    · have hmid : low + (high - low) / 2 < high := by omega
      have hwrap : wrap32 (low + (high - low) / 2) = low + (high - low) / 2 :=
        Nat.mod_eq_of_lt (by omega)
      have hnext : wrap32 (low + (high - low) / 2 + 1) = low + (high - low) / 2 + 1 :=
        Nat.mod_eq_of_lt (by omega)
      simp only [if_pos hopen, hwrap, hnext]
      generalize hm : low + (high - low) / 2 = mid at hmid ⊢
      have hin : mid < nmemb := by omega
      by_cases hequal : cmp (elementAt size mem (elementPtr arr size mid)) = 0
      · rw [if_pos hequal]
        refine ⟨_, rfl, ?_, ?_, fun hnone => nomatch hnone⟩
        · intro p hp
          exact ⟨mid, hin, List.mem_singleton.mp hp⟩
        · intro p hp
          cases hp
          exact ⟨⟨mid, hin, rfl⟩, hequal⟩
      · rw [if_neg hequal]
        by_cases hgreater : 0 < cmp (elementAt size mem (elementPtr arr size mid))
        · have hlow' : ∀ i, i < mid + 1 → i < nmemb →
              0 < cmp (elementAt size mem (elementPtr arr size i)) :=
            fun i hi _ => hsmall i mid (by omega) hin hgreater
          obtain ⟨r, hr, h⟩ := ih hhigh (by omega) (by omega) hlow' habove
          rw [if_pos hgreater, hr]
          exact ⟨_, rfl, h.next hin⟩
        · have habove' : ∀ i, mid ≤ i → i < nmemb →
              cmp (elementAt size mem (elementPtr arr size i)) < 0 :=
            fun i hi hilt => hlarge mid i hi hilt (by omega)
          obtain ⟨r, hr, h⟩ := ih (by omega) (by omega) (by omega) hlow habove'
          rw [if_neg hgreater, hr]
          exact ⟨_, rfl, h.next hin⟩
    · rw [if_neg hopen]
      refine ⟨_, rfl, fun p hp => absurd hp List.not_mem_nil, fun p hp => ?_, fun _ i hi => ?_⟩
      · contradiction
      by_cases hlt : i < low
      · exact (hlow i hlt hi).ne'
      · exact (habove i (by omega) hi).ne

end Searching

/-- `bsearch` ends, compares with elements of the array only, and finds an element that
compares equal to the key if there is one. -/
theorem bsearch_complete {size : Nat} (cmp : Element size → Int)
    (le : Element size → Element size → Prop) (mem : Bytes) (arr nmemb rounds : Nat)
    (hle : TotalPreorder le) (hcount : nmemb < 4294967296)
    (hsorted : ∀ i, i + 1 < nmemb → le (elementAt size mem (elementPtr arr size i))
      (elementAt size mem (elementPtr arr size (i + 1))))
    (hkey : ∀ a b, le a b → (cmp a < 0 → cmp b < 0) ∧ (0 < cmp b → 0 < cmp a))
    (hrounds : nmemb < rounds) :
    ∃ r, bsearch cmp mem arr rounds nmemb = some r ∧ Searched cmp mem arr nmemb r := by
  have hordered : ∀ i j, i ≤ j → j < nmemb → le (elementAt size mem (elementPtr arr size i))
      (elementAt size mem (elementPtr arr size j)) := by
    intro i j hij
    induction j, hij using Nat.le_induction with
    | base => exact fun _ => hle.refl _
    | succ j hij ih => exact fun hj => hle.trans (ih (by omega)) (hsorted j hj)
  apply bsearchLoop_searched _ _ hcount le_rfl (by omega) (by omega)
  · intro i hi
    omega
  · intro i hi hlt
    omega
  · exact fun i j hij hj => (hkey _ _ (hordered i j hij hj)).2
  · exact fun i j hij hj => (hkey _ _ (hordered i j hij hj)).1

/-- A key that is compared by its byte. -/
def compareKey (key : Nat) (a : Element 1) : Int := (key : Int) - (a 0).toNat

theorem bsearch_complete_bytes :
    ∃ r, bsearch (compareKey 2) (fun x => (x : Nat)) 4096 4 3 = some r ∧
      Searched (compareKey 2) (fun x => (x : Nat)) 4096 3 r := by
  apply bsearch_complete (compareKey 2) (fun a b => (a 0).toNat ≤ (b 0).toNat)
  · exact ⟨fun a b => Nat.le_total _ _, fun h h' => Nat.le_trans h h'⟩
  · omega
  · intro i hi
    have hcases : i = 0 ∨ i = 1 := by omega
    cases hcases with
    | inl h => subst h; decide
    | inr h => subst h; decide
  · intro a b h
    unfold compareKey
    omega
  · omega

end EnclaveOS
