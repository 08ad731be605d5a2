import EnclaveOS.Foundation.IntervalScan
import EnclaveOS.Memory.Vma

/-!
# VmaScans - the early exits of the area walks

`vma_find` and `vma_intersects` end their walk when the areas start above the address or
the range.  On a sorted list they find what the plain walks find.  The overlap test of
`vma_intersects` compares bounds, so it also answers for an area without addresses.
-/

namespace EnclaveOS

open IntervalList

/-- An area holds an address. -/
def Vma.Holds (v : Vma) (addr : Nat) : Prop := v.start ≤ addr ∧ addr < v.end

/-- The areas are sorted and no address lies in two of them. -/
structure SortedDisjoint (vmas : List Vma) : Prop where
  sorted : vmas.Pairwise fun a b => a.start ≤ b.start
  disjoint : vmas.Pairwise fun a b => ∀ x, ¬(a.Holds x ∧ b.Holds x)

variable {vmas : List Vma} {addr start stop : Nat} {ignored : Option Nat} {v : Vma}

theorem vmaFindPage_eq_findUntil (pageAddr : Nat) (vmas : List Vma) :
    vmaFindPage pageAddr vmas =
      findUntil (fun v => v.start ≤ pageAddr ∧ pageAddr < v.end) (fun v => pageAddr < v.start)
        vmas := by
  induction vmas with
  | nil => rfl
  | cons curr rest ih =>
    simp only [vmaFindPage, findUntil, ih, decide_eq_true_eq, ge_iff_le, gt_iff_lt]

/-- On a sorted list `vma_find` is the plain lookup of the page. -/
theorem vmaFind_eq_itemAt (hsorted : vmas.Pairwise fun a b => a.start ≤ b.start) :
    vmaFind vmas addr = itemAt Vma.start Vma.end (pageDown addr) vmas := by
  rw [vmaFind, vmaFindPage_eq_findUntil, itemAt]
  apply findUntil_eq_find?
  apply hsorted.imp
  intro a b hab hpast
  simp only [decide_eq_true_eq, decide_eq_false_iff_not] at hpast ⊢
  omega

/-- Two positions that hold one address are the same. -/
theorem SortedDisjoint.unique (h : SortedDisjoint vmas) {x i j : Nat} {v w : Vma}
    (hi : vmas[i]? = some v) (hj : vmas[j]? = some w) (hv : v.Holds x) (hw : w.Holds x) :
    i = j := by
  obtain ⟨hilt, hi⟩ := List.getElem?_eq_some_iff.mp hi
  obtain ⟨hjlt, hj⟩ := List.getElem?_eq_some_iff.mp hj
  subst hi hj
  have hpair := List.pairwise_iff_getElem.mp h.disjoint
  by_contra hne
  rcases Nat.lt_or_gt_of_ne hne with hlt | hlt
  · exact hpair i j hilt hjlt hlt x ⟨hv, hw⟩
  · exact hpair j i hjlt hilt hlt x ⟨hw, hv⟩

/-- The node that `vma_find` should answer with: the only one that holds the page. -/
def OnlyHolder (vmas : List Vma) (page : Nat) (v : Vma) : Prop :=
  ∃ i, vmas[i]? = some v ∧ v.Holds page ∧
    ∀ (j : Nat) (w : Vma), vmas[j]? = some w → w.Holds page → j = i

/-- `vma_find` answers with the only area that holds the page. -/
theorem vmaFind_eq_some_iff (h : SortedDisjoint vmas) :
    vmaFind vmas addr = some v ↔ OnlyHolder vmas (pageDown addr) v := by
  rw [vmaFind_eq_itemAt h.sorted]
  constructor
  · intro hfind
    obtain ⟨hmem, hholds⟩ := itemAt_mem hfind
    obtain ⟨i, hi⟩ := List.getElem?_of_mem hmem
    exact ⟨i, hi, hholds, fun j w hj hw => h.unique hj hi hw hholds⟩
  · intro honly
    obtain ⟨i, hi, hholds, honly⟩ := honly
    cases hfind : itemAt Vma.start Vma.end (pageDown addr) vmas with
    | none => exact absurd hholds (itemAt_eq_none_iff.mp hfind v (List.mem_of_getElem? hi))
    | some w =>
      obtain ⟨hmem, hw⟩ := itemAt_mem hfind
      obtain ⟨j, hj⟩ := List.getElem?_of_mem hmem
      rw [honly j w hj hw, hi] at hj
      exact hj.symm

theorem vmaFind_eq_none_iff (h : SortedDisjoint vmas) :
    vmaFind vmas addr = none ↔ ∀ v ∈ vmas, ¬v.Holds (pageDown addr) := by
  rw [vmaFind_eq_itemAt h.sorted]
  exact itemAt_eq_none_iff

/-- The walk over the areas with their positions. -/
theorem vmaIntersectsFrom_eq_findUntil (pos : Nat) (vmas : List Vma) :
    vmaIntersectsFrom start stop ignored pos vmas =
      (findUntil (fun (v, i) => ignored ≠ some i ∧ start < v.end ∧ v.start < stop)
        (fun (v, i) => ignored ≠ some i ∧ stop ≤ v.start) (vmas.zipIdx pos)).isSome := by
  induction vmas generalizing pos with
  | nil => rfl
  | cons curr rest ih =>
    rw [vmaIntersectsFrom, List.zipIdx_cons, findUntil, ih]
    by_cases hignored : ignored = some pos
    · simp [hignored]
    · by_cases hmeets : start < curr.end ∧ curr.start < stop
      · simp [hignored, hmeets]
      · by_cases hpast : stop ≤ curr.start <;> simp [hignored, hmeets, hpast]

/-- On a sorted list `vma_intersects` tests the bounds of every area but the ignored one. -/
theorem vmaIntersects_eq_true_iff (hsorted : vmas.Pairwise fun a b => a.start ≤ b.start) :
    vmaIntersects vmas start stop ignored = true ↔
      ∃ (i : Nat) (v : Vma), vmas[i]? = some v ∧ ignored ≠ some i ∧
        start < v.end ∧ v.start < stop := by
  rw [vmaIntersects, vmaIntersectsFrom_eq_findUntil, findUntil_eq_find?]
  · simp only [List.find?_isSome, Prod.exists, List.mem_zipIdx_iff_getElem?, decide_eq_true_eq]
    exact exists_comm
  · have hzip : (vmas.zipIdx.map Prod.fst).Pairwise fun a b => a.start ≤ b.start := by
      rwa [List.zipIdx_map_fst]
    apply (List.pairwise_map.mp hzip).imp
    intro a b hab hpast
    simp only [decide_eq_true_eq, decide_eq_false_iff_not] at hpast ⊢
    omega

/-- Some area other than the ignored one shares an address with the range. -/
def SharesAddress (vmas : List Vma) (start stop : Nat) (ignored : Option Nat) : Prop :=
  ∃ (i : Nat) (v : Vma), vmas[i]? = some v ∧ ignored ≠ some i ∧
    ∃ x, v.Holds x ∧ start ≤ x ∧ x < stop

/-- An area without addresses, other than the ignored one, lies strictly inside the range. -/
def EmptyInside (vmas : List Vma) (start stop : Nat) (ignored : Option Nat) : Prop :=
  ∃ (i : Nat) (v : Vma), vmas[i]? = some v ∧ ignored ≠ some i ∧
    v.end ≤ v.start ∧ start < v.end ∧ v.start < stop

/-- The bounds of an area with addresses overlap a range when they share an address. -/
theorem overlap_iff (hlt : start < stop) :
    start < v.end ∧ v.start < stop ↔
      (∃ x, v.Holds x ∧ start ≤ x ∧ x < stop) ∨
        v.end ≤ v.start ∧ start < v.end ∧ v.start < stop := by
  constructor
  · intro hmeets
    by_cases hempty : v.end ≤ v.start
    · exact Or.inr ⟨hempty, hmeets⟩
    · refine Or.inl ⟨max start v.start, ?_⟩
      unfold Vma.Holds
      omega
  · intro h
    cases h with
    | inl hshare =>
      obtain ⟨x, hholds, hx⟩ := hshare
      unfold Vma.Holds at hholds
      omega
    | inr hempty => exact hempty.2

theorem vmaIntersects_iff_shares_or_empty
    (hsorted : vmas.Pairwise fun a b => a.start ≤ b.start) (hlt : start < stop) :
    vmaIntersects vmas start stop ignored = true ↔
      SharesAddress vmas start stop ignored ∨ EmptyInside vmas start stop ignored := by
  rw [vmaIntersects_eq_true_iff hsorted, SharesAddress, EmptyInside, ← exists_or]
  refine exists_congr fun i => ?_
  rw [← exists_or]
  refine exists_congr fun v => ?_
  refine (and_congr_right fun _ => and_congr_right fun _ => overlap_iff hlt).trans ?_
  rw [and_or_left, and_or_left]

/-- Both walks agree with the addresses of the areas. -/
structure ScansAgree (vmas : List Vma) (addr start stop : Nat) (ignored : Option Nat) : Prop where
  found : ∀ v, vmaFind vmas addr = some v ↔ OnlyHolder vmas (pageDown addr) v
  notFound : vmaFind vmas addr = none ↔ ∀ v ∈ vmas, ¬v.Holds (pageDown addr)
  intersects : vmaIntersects vmas start stop ignored = true ↔
    SharesAddress vmas start stop ignored

/-- They do, unless the only areas inside the range have no address. -/
theorem scans_agree_iff (h : SortedDisjoint vmas) (addr : Nat) (hlt : start < stop)
    (ignored : Option Nat) :
    ScansAgree vmas addr start stop ignored ↔
      SharesAddress vmas start stop ignored ∨ ¬EmptyInside vmas start stop ignored := by
  have hwalk : vmaIntersects vmas start stop ignored = true ↔ _ :=
    vmaIntersects_iff_shares_or_empty h.sorted hlt
  constructor
  · intro hagree
    by_contra hnot
    push Not at hnot
    exact hnot.1 (hagree.intersects.mp (hwalk.mpr (Or.inr hnot.2)))
  · intro hcond
    refine ⟨fun v => vmaFind_eq_some_iff h, vmaFind_eq_none_iff h, hwalk.trans ?_⟩
    constructor
    · intro hor
      cases hor with
      | inl hshares => exact hshares
      | inr hempty => exact hcond.resolve_right (not_not_intro hempty)
    · exact Or.inl

/-- The stack and the heap that was not grown yet. -/
def freshVmas : List Vma :=
  [⟨userHeapStart, userHeapStart, vmaRead ||| vmaWrite⟩,
    ⟨userStackVirtTop - userStackSize, userStackVirtTop, vmaRead ||| vmaWrite⟩]

theorem mem_freshVmas : v ∈ freshVmas ↔
    v = ⟨userHeapStart, userHeapStart, vmaRead ||| vmaWrite⟩ ∨
      v = ⟨userStackVirtTop - userStackSize, userStackVirtTop, vmaRead ||| vmaWrite⟩ := by
  simp [freshVmas]

theorem freshVmas_sortedDisjoint : SortedDisjoint freshVmas := by
  constructor
  · decide
  · refine List.pairwise_pair.mpr fun x hx => ?_
    obtain ⟨hheap, -⟩ := hx
    exact absurd (hheap.1.trans_lt hheap.2) (lt_irrefl _)

/-- A range behind the heap. -/
theorem scans_agree_behind_heap : ScansAgree freshVmas 0xBFFF0123 0x10000000 0x10001000 none := by
  apply (scans_agree_iff freshVmas_sortedDisjoint 0xBFFF0123 (by decide) none).mpr
  refine Or.inr ?_
  intro hempty
  obtain ⟨i, v, hv, -, hle, hin⟩ := hempty
  obtain rfl | rfl := mem_freshVmas.mp (List.mem_of_getElem? hv)
  · exact absurd hin.1 (by decide)
  · exact absurd hle (by decide)

/-- An empty heap is reported inside a range that covers none of its addresses. -/
theorem empty_heap_intersects : ¬ ∀ (vmas : List Vma) (addr start stop : Nat)
    (ignored : Option Nat), SortedDisjoint vmas → start < stop →
    ScansAgree vmas addr start stop ignored := by
  intro hall
  have hagree := hall freshVmas 0 0x0FFFF000 0x10001000 none freshVmas_sortedDisjoint (by decide)
  obtain ⟨i, v, hv, -, x, hholds, hx⟩ := hagree.intersects.mp (by decide)
  obtain rfl | rfl := mem_freshVmas.mp (List.mem_of_getElem? hv)
  · exact absurd (hholds.1.trans_lt hholds.2) (lt_irrefl _)
  · have hle : userStackVirtTop - userStackSize ≤ x := hholds.1
    unfold userStackVirtTop userStackSize at hle
    omega

end EnclaveOS
