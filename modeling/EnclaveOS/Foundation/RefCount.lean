import Mathlib.Algebra.BigOperators.Group.Finset.Piecewise
import Mathlib.Algebra.BigOperators.Group.Finset.Sigma

/-!
# Foundation - counting references from sites to objects

A reference-counted store has *sites*, each of which refers to at most one
object, and a counter for each object.  This module counts the sites of a
finite set that refer to an object and follows the count through the updates of
a single site.  Sites and objects are arbitrary types with decidable equality.
-/

namespace EnclaveOS
namespace RefCount

variable {ι α κ : Type*} [DecidableEq α]

/-- Number of sites of `S` that refer to `a`. -/
def refs (S : Finset ι) (site : ι → Option α) (a : α) : Nat :=
  (S.filter fun s => site s = some a).card

variable {S T : Finset ι} {site : ι → Option α} {a b : α} {s t : ι}

theorem refs_pos_iff : 0 < refs S site a ↔ ∃ s ∈ S, site s = some a := by
  rw [refs, Finset.card_pos]
  constructor
  · rintro ⟨s, hs⟩
    exact ⟨s, (Finset.mem_filter.mp hs).1, (Finset.mem_filter.mp hs).2⟩
  · rintro ⟨s, hs, hsite⟩
    exact ⟨s, Finset.mem_filter.mpr ⟨hs, hsite⟩⟩

theorem refs_pos (hs : s ∈ S) (hsite : site s = some a) : 0 < refs S site a :=
  refs_pos_iff.mpr ⟨s, hs, hsite⟩

theorem refs_eq_zero_iff : refs S site a = 0 ↔ ∀ s ∈ S, site s ≠ some a := by
  rw [refs, Finset.card_eq_zero, Finset.filter_eq_empty_iff]

/-- Two sites share an object of count one only if they are the same site. -/
theorem site_unique (hone : refs S site a ≤ 1) (hs : s ∈ S) (ht : t ∈ S)
    (hsa : site s = some a) (hta : site t = some a) : s = t :=
  Finset.card_le_one.mp hone s (Finset.mem_filter.mpr ⟨hs, hsa⟩)
    t (Finset.mem_filter.mpr ⟨ht, hta⟩)

/-- The count only reads the sites of the set. -/
theorem refs_congr {site' : ι → Option α} (h : ∀ s ∈ S, site s = site' s) (a : α) :
    refs S site a = refs S site' a := by
  unfold refs
  congr 1
  apply Finset.filter_congr
  intro s hs
  rw [h s hs]

section Update

variable [DecidableEq ι]

private theorem refs_off (hs : s ∈ S) (site : ι → Option α) (a : α) :
    refs S site a = refs (S.erase s) site a + if site s = some a then 1 else 0 := by
  unfold refs
  conv_lhs => rw [← Finset.insert_erase hs, Finset.filter_insert]
  by_cases h : site s = some a
  · have hnot : s ∉ (S.erase s).filter fun s => site s = some a := by simp
    rw [if_pos h, if_pos h, Finset.card_insert_of_notMem hnot]
  · rw [if_neg h, if_neg h, Nat.add_zero]

/-- Writing one site takes one unit from its old object and gives one to its new
object. -/
theorem refs_update (hs : s ∈ S) (site : ι → Option α) (v : Option α) (a : α) :
    refs S (Function.update site s v) a + (if site s = some a then 1 else 0) =
      refs S site a + (if v = some a then 1 else 0) := by
  have hrest : refs (S.erase s) (Function.update site s v) a = refs (S.erase s) site a := by
    unfold refs
    congr 1
    apply Finset.filter_congr
    intro t ht
    rw [Function.update_of_ne (Finset.ne_of_mem_erase ht)]
  rw [refs_off hs (Function.update site s v), refs_off hs site, hrest,
    Function.update_self]
  omega

theorem refs_install (hs : s ∈ S) (hempty : site s = none) (a b : α) :
    refs S (Function.update site s (some a)) b = refs S site b + if a = b then 1 else 0 := by
  have h := refs_update hs site (some a) b
  simpa [hempty] using h

/-- Dropping the reference of a site. -/
theorem refs_remove (hs : s ∈ S) (hsite : site s = some a) (b : α) :
    refs S (Function.update site s none) b = refs S site b - if a = b then 1 else 0 := by
  have h := refs_update hs site none b
  simp only [hsite, Option.some.injEq, reduceCtorEq, if_false, Nat.add_zero] at h
  omega

end Update

/-- The count only depends on the sites that refer to something. -/
theorem refs_congr_support (hST : ∀ s, site s ≠ none → (s ∈ S ↔ s ∈ T)) (a : α) :
    refs S site a = refs T site a := by
  unfold refs
  congr 1
  ext s
  simp only [Finset.mem_filter]
  constructor
  · rintro ⟨hs, hsite⟩
    exact ⟨(hST s (by simp [hsite])).mp hs, hsite⟩
  · rintro ⟨hs, hsite⟩
    exact ⟨(hST s (by simp [hsite])).mpr hs, hsite⟩

/-- When each owner has at most one site for an object, the object has at most
as many references as there are owners. -/
theorem refs_le_card (owners : Finset κ) (owner : ι → κ)
    (howner : ∀ s ∈ S, site s = some a → owner s ∈ owners)
    (hsingle : ∀ s ∈ S, ∀ t ∈ S, site s = some a → site t = some a → owner s = owner t → s = t) :
    refs S site a ≤ owners.card := by
  apply Finset.card_le_card_of_injOn owner
  · intro s hs
    have hs' := Finset.mem_filter.mp hs
    exact howner s hs'.1 hs'.2
  · intro s hs t ht hst
    have hs' := Finset.mem_filter.mp hs
    have ht' := Finset.mem_filter.mp ht
    exact hsingle s hs'.1 t ht'.1 hs'.2 ht'.2 hst

/-- The references of a row, as a list. -/
theorem count_filterMap_range (site : Nat → Option α) (a : α) (n : Nat) :
    ((List.range n).filterMap site).count a = refs (Finset.range n) site a := by
  induction n with
  | zero => rfl
  | succ n ih =>
    have hnot : n ∉ (Finset.range n).filter fun s => site s = some a := by simp
    have hsingle : ([n].filterMap site).count a = if site n = some a then 1 else 0 := by
      cases hn : site n with
      | none => simp [hn]
      | some b => simp [hn, List.count_singleton]
    rw [List.range_succ, List.filterMap_append, List.count_append, ih, hsingle, refs, refs,
      Finset.range_add_one, Finset.filter_insert]
    split_ifs
    · rw [Finset.card_insert_of_notMem hnot]
    · rw [Nat.add_zero]

/-- The references of all rows, as a list. -/
theorem count_flatMap_range (rows : Nat → List α) (a : α) (n : Nat) :
    ((List.range n).flatMap rows).count a = ∑ i ∈ Finset.range n, (rows i).count a := by
  induction n with
  | zero => rfl
  | succ n ih => simp [List.range_succ, Finset.sum_range_succ, ih]

theorem refs_product (S : Finset κ) (T : Finset ι) (site : κ × ι → Option α) (a : α) :
    refs (S ×ˢ T) site a = ∑ s ∈ S, refs T (fun t => site (s, t)) a := by
  simp only [refs, Finset.card_filter]
  exact Finset.sum_product S T _

end RefCount
end EnclaveOS
