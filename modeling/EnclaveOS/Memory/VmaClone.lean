import EnclaveOS.Memory.Vma
import EnclaveOS.Foundation.StableSort

/-!
# VmaClone - what fork makes of an area list

`vma_clone` gives every area of the parent to `vma_add`, which rounds its bounds and looks
for its place by the start alone.  The first area stays the first, and the others come in
front of those with the same start.
-/

namespace EnclaveOS

variable {vmas child : List Vma} {x : Vma} {k : Kmalloc}

/-- The area that `vma_add` makes. -/
def roundedVma (v : Vma) : Vma := ⟨pageDown v.start, pageUp v.end, v.flags⟩

theorem vmaInsertAfter_eq_orderedInsert (x : Vma) (vmas : List Vma) :
    vmaInsertAfter x vmas = vmas.orderedInsert (KeyLe Vma.start) x := by
  induction vmas with
  | nil => rfl
  | cons next rest ih =>
    rw [vmaInsertAfter, List.orderedInsert_cons, ih]
    by_cases h : next.start < x.start
    · rw [if_pos h, if_neg (show ¬ KeyLe Vma.start x next from Nat.not_le.mpr h)]
    · rw [if_neg h, if_pos (show KeyLe Vma.start x next from Nat.not_lt.mp h)]

/-- A sorted list stays sorted. -/
theorem pairwise_vmaInsert (h : vmas.Pairwise (KeyLe Vma.start)) :
    (vmaInsert x vmas).Pairwise (KeyLe Vma.start) := by
  cases vmas with
  | nil => exact List.pairwise_singleton _ _
  | cons head rest =>
    rw [vmaInsert]
    split_ifs with hfirst
    · refine List.pairwise_cons.mpr ⟨fun v hv => ?_, h⟩
      have hle : head.start ≤ v.start := by
        rcases List.mem_cons.mp hv with rfl | hv
        · exact Nat.le_refl _
        · exact (List.pairwise_cons.mp h).1 v hv
      exact (Nat.le_of_lt hfirst).trans hle
    · rw [List.pairwise_cons] at h
      rw [vmaInsertAfter_eq_orderedInsert, List.pairwise_cons]
      refine ⟨fun v hv => ?_, h.2.orderedInsert x rest⟩
      rcases (List.mem_orderedInsert (KeyLe Vma.start)).mp hv with rfl | hv
      · exact Nat.not_lt.mp hfirst
      · exact h.1 v hv

/-- The walk of `vma_clone` that goes through. -/
theorem vmaCloneFrom_eq (h : (vmaCloneFrom child vmas k).2.1 = 0) :
    (vmaCloneFrom child vmas k).1 = vmas.foldl (fun c v => vmaInsert (roundedVma v) c) child ∧
      ∀ v ∈ vmas, v.start < kernelSpaceStart ∧ v.end ≤ kernelSpaceStart := by
  induction vmas generalizing child k with
  | nil => exact ⟨rfl, by simp⟩
  | cons current rest ih =>
    rw [vmaCloneFrom] at h ⊢
    rcases hadd : vmaAdd child current.start current.end current.flags k with ⟨child', ret, k'⟩
    have hcases := vmaAdd_cases child current.start current.end current.flags k
    rw [hadd] at h hcases
    dsimp only at h hcases ⊢
    by_cases hneg : ret < 0
    · rw [if_pos hneg] at h
      exact absurd h (show ¬ -eNoMem = 0 by decide)
    · rw [if_neg hneg] at h ⊢
      obtain ⟨hstart, hend, hchild, -⟩ := hcases.resolve_left fun hc => hneg hc.2
      obtain ⟨hres, hrest⟩ := ih h
      refine ⟨?_, fun v hv => ?_⟩
      · rw [hres, hchild]
        rfl
      · rcases List.mem_cons.mp hv with rfl | hv
        · exact ⟨hstart, hend⟩
        · exact hrest v hv

/-- Areas that come behind the first one are inserted behind it. -/
theorem foldl_vmaInsert {head : Vma} (rest : List Vma) (h : ∀ v ∈ vmas, head.start ≤ v.start) :
    vmas.foldl (fun c v => vmaInsert v c) (head :: rest) =
      head :: vmas.foldl (fun c v => c.orderedInsert (KeyLe Vma.start) v) rest := by
  induction vmas generalizing rest with
  | nil => rfl
  | cons v vmas ih =>
    rw [List.foldl_cons, List.foldl_cons, vmaInsert,
      if_neg (Nat.not_lt.mpr (h v List.mem_cons_self)), vmaInsertAfter_eq_orderedInsert]
    exact ih _ fun u hu => h u (List.mem_cons_of_mem _ hu)

theorem foldl_orderedInsert (vmas : List Vma) :
    vmas.foldl (fun c v => c.orderedInsert (KeyLe Vma.start) v) [] =
      vmas.reverse.insertionSort (KeyLe Vma.start) := by
  rw [List.insertionSort, List.foldr_reverse]

theorem pairwise_foldl_vmaInsert (h : child.Pairwise (KeyLe Vma.start)) :
    (vmas.foldl (fun c v => vmaInsert (roundedVma v) c) child).Pairwise (KeyLe Vma.start) := by
  induction vmas generalizing child with
  | nil => exact h
  | cons v vmas ih => exact ih (pairwise_vmaInsert h)

theorem mem_foldl_vmaInsert {v : Vma} :
    v ∈ vmas.foldl (fun c v => vmaInsert (roundedVma v) c) child ↔
      v ∈ child ∨ ∃ u ∈ vmas, v = roundedVma u := by
  induction vmas generalizing child with
  | nil => simp
  | cons u vmas ih =>
    rw [List.foldl_cons, ih, mem_vmaInsert]
    simp only [List.mem_cons, exists_eq_or_imp]
    tauto

/-- An area list that is copied as it is: its bounds are at pages, it is sorted, and behind its
first area those with the same start read the same from both ends. -/
structure Reinserts (vmas : List Vma) : Prop where
  aligned : ∀ v ∈ vmas, v.start % 4096 = 0 ∧ v.end % 4096 = 0
  sorted : vmas.Pairwise fun a b => a.start ≤ b.start
  symmetric : ∀ start, (vmas.tail.filter (·.start = start)).reverse =
    vmas.tail.filter (·.start = start)

theorem roundedVma_eq_self {v : Vma} (hend : v.end ≤ kernelSpaceStart) :
    roundedVma v = v ↔ v.start % 4096 = 0 ∧ v.end % 4096 = 0 := by
  obtain ⟨start, stop, flags⟩ := v
  have hfit : stop ≤ 0xFFFFF000 := le_trans hend kernelSpaceStart_le_lastPage
  simp only [roundedVma, Vma.mk.injEq, and_true]
  constructor
  · rintro ⟨h₁, h₂⟩
    exact ⟨h₁ ▸ pageDown_mod start, h₂ ▸ pageUp_mod stop⟩
  · rintro ⟨h₁, h₂⟩
    exact ⟨pageDown_eq_self h₁, le_antisymm (pageUp_le le_rfl h₂ hfit) (le_pageUp hfit)⟩

/-- `vma_clone` that succeeds gives the child the list of the parent exactly when the list is
one that is copied as it is. -/
theorem vmaClone_eq_iff (vmas : List Vma) (k : Kmalloc) (h : (vmaClone vmas k).2.1 = 0) :
    (vmaClone vmas k).1 = vmas ↔ Reinserts vmas := by
  obtain ⟨hres, hbounds⟩ := vmaCloneFrom_eq h
  have hclone : (vmaClone vmas k).1 = vmas.foldl (fun c v => vmaInsert (roundedVma v) c) [] := hres
  rw [hclone]
  -- on aligned and sorted lists the walk is insertion sort from the end, behind the first area
  have hsort : ∀ head rest, vmas = head :: rest → (∀ v ∈ vmas, roundedVma v = v) →
      vmas.Pairwise (KeyLe Vma.start) →
      (vmas.foldl (fun c v => vmaInsert (roundedVma v) c) [] = vmas ↔
        rest.reverse.insertionSort (KeyLe Vma.start) = rest) := by
    intro head rest heq hround hsorted
    subst heq
    have hplain : (head :: rest).foldl (fun c v => vmaInsert (roundedVma v) c) [] =
        (head :: rest).foldl (fun c v => vmaInsert v c) [] :=
      List.foldl_ext _ _ _ fun c v hv => by rw [hround v hv]
    rw [List.pairwise_cons] at hsorted
    rw [hplain, List.foldl_cons, vmaInsert, foldl_vmaInsert [] hsorted.1, foldl_orderedInsert,
      List.cons.injEq]
    exact and_iff_right rfl
  constructor
  · intro heq
    have hround : ∀ v ∈ vmas, v.start % 4096 = 0 ∧ v.end % 4096 = 0 := by
      intro v hv
      rw [← heq, mem_foldl_vmaInsert] at hv
      obtain ⟨u, hu, rfl⟩ := hv.resolve_left (List.not_mem_nil)
      exact ⟨pageDown_mod _, pageUp_mod _⟩
    have hself : ∀ v ∈ vmas, roundedVma v = v :=
      fun v hv => (roundedVma_eq_self (hbounds v hv).2).mpr (hround v hv)
    have hsorted : vmas.Pairwise (KeyLe Vma.start) := by
      rw [← heq]
      exact pairwise_foldl_vmaInsert .nil
    refine ⟨hround, hsorted, ?_⟩
    cases vmas with
    | nil => simp
    | cons head rest =>
      have hrest := (hsort head rest rfl hself hsorted).mp heq
      exact (insertionSort_reverse_eq_iff (List.pairwise_cons.mp hsorted).2).mp hrest
  · intro hre
    have hself : ∀ v ∈ vmas, roundedVma v = v :=
      fun v hv => (roundedVma_eq_self (hbounds v hv).2).mpr (hre.aligned v hv)
    have hsorted : vmas.Pairwise (KeyLe Vma.start) := hre.sorted
    cases vmas with
    | nil => rfl
    | cons head rest =>
      rw [hsort head rest rfl hself hsorted]
      exact (insertionSort_reverse_eq_iff (List.pairwise_cons.mp hsorted).2).mpr hre.symmetric

/-- Two areas at pages. -/
theorem vmaClone_eq_iff_sample :
    (vmaClone [⟨0x08048000, 0x08049000, 3#32⟩, ⟨0x10000000, 0x10002000, 3#32⟩] []).1 =
      [⟨0x08048000, 0x08049000, 3#32⟩, ⟨0x10000000, 0x10002000, 3#32⟩] := by
  refine (vmaClone_eq_iff _ [] (by decide)).mpr ⟨by decide, by decide, fun start => ?_⟩
  simp only [List.tail_cons, List.filter_cons, List.filter_nil]
  split_ifs <;> rfl

end EnclaveOS
