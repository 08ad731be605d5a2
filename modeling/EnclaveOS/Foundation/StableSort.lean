import Mathlib.Data.List.Sort

/-!
# Foundation - sorting by a key that does not tell all elements apart

Insertion in front of the first element whose key is not below keeps the elements of one
key in the order in which they are inserted last.  A sorted list is determined by its
fibers, the elements with a given key in their order.
-/

namespace EnclaveOS

variable {α β : Type*} [LinearOrder β] {key : α → β} {l l' : List α} {a : α}

/-- The order of the keys. -/
def KeyLe (key : α → β) (a b : α) : Prop := key a ≤ key b

instance (key : α → β) : DecidableRel (KeyLe key) :=
  fun a b => inferInstanceAs (Decidable (key a ≤ key b))

instance (key : α → β) : Std.Total (KeyLe key) := ⟨fun a b => le_total (key a) (key b)⟩

instance (key : α → β) : IsTrans α (KeyLe key) := ⟨fun _ _ _ => le_trans⟩

/-- The elements with one key keep their order. -/
theorem filter_insertionSort_key (l : List α) (x : β) :
    (l.insertionSort (KeyLe key)).filter (key · = x) = l.filter (key · = x) := by
  have hfiber : (l.filter (key · = x)).Pairwise (KeyLe key) := by
    rw [List.pairwise_iff_forall_sublist]
    intro a b hab
    have ha := List.of_mem_filter (hab.subset (by simp : a ∈ [a, b]))
    have hb := List.of_mem_filter (hab.subset (by simp : b ∈ [a, b]))
    simp only [decide_eq_true_eq] at ha hb
    exact (ha.trans hb.symm).le
  have hsub := (List.sublist_insertionSort hfiber List.filter_sublist).filter
    fun a => decide (key a = x)
  rw [List.filter_filter, List.filter_congr fun a _ => Bool.and_self _] at hsub
  have hlen := ((List.perm_insertionSort (KeyLe key) l).filter fun a => decide (key a = x)).length_eq
  exact (hsub.eq_of_length hlen.symm).symm

/-- A sorted list is determined by its fibers. -/
theorem eq_of_filter_key (hl : l.Pairwise (KeyLe key)) (hl' : l'.Pairwise (KeyLe key))
    (h : ∀ x, l.filter (key · = x) = l'.filter (key · = x)) : l = l' := by
  have hmem : ∀ {l l' : List α}, (∀ x, l.filter (key · = x) = l'.filter (key · = x)) →
      ∀ a ∈ l, a ∈ l' := by
    intro l l' h a ha
    have hin : a ∈ l.filter (key · = key a) := by simp [ha]
    rw [h] at hin
    exact List.mem_of_mem_filter hin
  induction l generalizing l' with
  | nil =>
    cases l' with
    | nil => rfl
    | cons b l' => simpa using hmem (fun x => (h x).symm) b
  | cons a l ih =>
    cases l' with
    | nil => simpa using hmem h a
    | cons b l' =>
      rw [List.pairwise_cons] at hl hl'
      have hab : key a ≤ key b := by
        rcases List.mem_cons.mp (hmem (fun x => (h x).symm) b List.mem_cons_self) with rfl | hb
        · exact le_refl _
        · exact hl.1 b hb
      have hba : key b ≤ key a := by
        rcases List.mem_cons.mp (hmem h a List.mem_cons_self) with rfl | ha
        · exact le_refl _
        · exact hl'.1 a ha
      have hkey : key b = key a := le_antisymm hba hab
      have hhead := h (key a)
      rw [List.filter_cons_of_pos (by simp), List.filter_cons_of_pos (by simp [hkey]),
        List.cons.injEq] at hhead
      obtain ⟨rfl, hrest⟩ := hhead
      rw [ih hl.2 hl'.2 fun x => ?_]
      by_cases hx : key a = x
      · rw [← hx, hrest]
      · have := h x
        rwa [List.filter_cons_of_neg (by simpa using hx),
          List.filter_cons_of_neg (by simpa using hx)] at this

/-- Sorting from the end turns each fiber around. -/
theorem insertionSort_reverse_eq_iff (hl : l.Pairwise (KeyLe key)) :
    l.reverse.insertionSort (KeyLe key) = l ↔
      ∀ x, (l.filter (key · = x)).reverse = l.filter (key · = x) := by
  constructor
  · intro h x
    rw [← List.filter_reverse, ← filter_insertionSort_key, h]
  · intro h
    apply eq_of_filter_key (List.pairwise_insertionSort _ _) hl
    intro x
    rw [filter_insertionSort_key, List.filter_reverse, h]

end EnclaveOS
