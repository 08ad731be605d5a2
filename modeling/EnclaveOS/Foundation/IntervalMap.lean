import Mathlib.Data.List.Basic
import Mathlib.Data.List.Flatten
import Mathlib.Order.Lattice

/-!
# Foundation - a list of intervals as a map

A list of items with bounds, in order, holds every point in at most one of its items.  Replacing
each item by parts of itself changes the map point by point.  The items and the points are
arbitrary; items may be empty.
-/

namespace EnclaveOS
namespace IntervalList

variable {α β : Type*} [LinearOrder β] {lo hi : α → β} {x : β} {l : List α} {a : α}

/-- Each item ends before the next one starts. -/
def Separated (lo hi : α → β) (l : List α) : Prop := l.Pairwise fun a b => hi a ≤ lo b

/-- The item that holds a point. -/
def itemAt (lo hi : α → β) (x : β) (l : List α) : Option α :=
  l.find? fun a => lo a ≤ x ∧ x < hi a

@[simp]
theorem itemAt_nil : itemAt lo hi x [] = none :=
  rfl

theorem itemAt_cons_of_mem (h : lo a ≤ x ∧ x < hi a) : itemAt lo hi x (a :: l) = some a := by
  simp [itemAt, h]

theorem itemAt_cons_of_not_mem (h : ¬(lo a ≤ x ∧ x < hi a)) :
    itemAt lo hi x (a :: l) = itemAt lo hi x l := by
  simp [itemAt, h]

theorem itemAt_append (l' : List α) :
    itemAt lo hi x (l ++ l') = (itemAt lo hi x l).or (itemAt lo hi x l') := by
  simp [itemAt]

theorem itemAt_eq_none_iff : itemAt lo hi x l = none ↔ ∀ a ∈ l, ¬(lo a ≤ x ∧ x < hi a) := by
  simp [itemAt]

theorem itemAt_mem (h : itemAt lo hi x l = some a) : a ∈ l ∧ lo a ≤ x ∧ x < hi a :=
  ⟨List.mem_of_find?_eq_some h, by simpa using List.find?_some h⟩

/-- What lies behind an item does not hold its points. -/
theorem Separated.not_mem_rest (h : Separated lo hi (a :: l)) (hx : x < hi a) :
    ∀ b ∈ l, ¬(lo b ≤ x ∧ x < hi b) := by
  intro b hb hmem
  have hle := (List.pairwise_cons.mp h).1 b hb
  exact absurd (hx.trans_le (hle.trans hmem.1)) (lt_irrefl x)

/-- The item that holds a point is the only one. -/
theorem itemAt_eq_some_iff (h : Separated lo hi l) :
    itemAt lo hi x l = some a ↔ a ∈ l ∧ lo a ≤ x ∧ x < hi a := by
  refine ⟨itemAt_mem, ?_⟩
  rintro ⟨ha, hmem⟩
  induction l with
  | nil => cases ha
  | cons b l ih =>
    by_cases hb : lo b ≤ x ∧ x < hi b
    · obtain rfl | ha := List.mem_cons.mp ha
      · exact itemAt_cons_of_mem hmem
      · exact absurd hmem (h.not_mem_rest hb.2 a ha)
    · rw [itemAt_cons_of_not_mem hb]
      obtain rfl | ha := List.mem_cons.mp ha
      · exact absurd hmem hb
      · exact ih (List.pairwise_cons.mp h).2 ha

/-- The parts of an item lie inside it, in order. -/
structure Parts (lo hi : α → β) (parts : α → List α) (a : α) : Prop where
  inside : ∀ p ∈ parts a, lo a ≤ lo p ∧ hi p ≤ hi a
  separated : Separated lo hi (parts a)

variable {parts : α → List α}

/-- The parts of an item are looked up where the item was. -/
theorem itemAt_flatMap (h : Separated lo hi l) (hparts : ∀ a ∈ l, Parts lo hi parts a) :
    itemAt lo hi x (l.flatMap parts) =
      (itemAt lo hi x l).bind fun a => itemAt lo hi x (parts a) := by
  induction l with
  | nil => rfl
  | cons a l ih =>
    have hrest := ih (List.pairwise_cons.mp h).2 fun b hb => hparts b (List.mem_cons_of_mem a hb)
    have hinside := (hparts a List.mem_cons_self).inside
    rw [List.flatMap_cons, itemAt_append, hrest]
    by_cases hx : lo a ≤ x ∧ x < hi a
    · have hnone : itemAt lo hi x l = none := itemAt_eq_none_iff.mpr (h.not_mem_rest hx.2)
      rw [itemAt_cons_of_mem hx, hnone]
      simp
    · have hnone : itemAt lo hi x (parts a) = none := by
        apply itemAt_eq_none_iff.mpr
        intro p hp hmem
        obtain ⟨hlo, hhi⟩ := hinside p hp
        exact hx ⟨hlo.trans hmem.1, hmem.2.trans_le hhi⟩
      rw [itemAt_cons_of_not_mem hx, hnone, Option.none_or]

/-- The parts of items in order are in order. -/
theorem Separated.flatMap (h : Separated lo hi l) (hparts : ∀ a ∈ l, Parts lo hi parts a) :
    Separated lo hi (l.flatMap parts) := by
  induction l with
  | nil => exact List.Pairwise.nil
  | cons a l ih =>
    obtain ⟨hfirst, hl⟩ := List.pairwise_cons.mp h
    rw [List.flatMap_cons]
    refine List.pairwise_append.mpr ⟨(hparts a List.mem_cons_self).separated,
      ih hl fun b hb => hparts b (List.mem_cons_of_mem a hb), fun p hp q hq => ?_⟩
    obtain ⟨b, hb, hq⟩ := List.mem_flatMap.mp hq
    have hp' := (hparts a List.mem_cons_self).inside p hp
    have hq' := (hparts b (List.mem_cons_of_mem a hb)).inside q hq
    exact hp'.2.trans ((hfirst b hb).trans hq'.1)

end IntervalList
end EnclaveOS
