import Mathlib.Data.List.Perm.Subperm

/-!
# RefPool - items with reference counts

A pool marks the items that are in use and counts the references to each.  A fresh item is
taken with one reference, an item in use can be shared, and the last reference that is
dropped gives the item back.  The references handed out since an earlier state of the pool
form a list.  When all of them are dropped, in any order, the pool is as it was.
-/

namespace EnclaveOS

/-- The items in use, and the references to each item. -/
@[ext]
structure RefPool (α : Type*) where
  used : α → Bool
  count : α → Nat

namespace RefPool

variable {α : Type*} [DecidableEq α] {p₀ p : RefPool α} {a : α} {l l' : List α}

/-- A fresh item with its first reference. -/
def take (p : RefPool α) (a : α) : RefPool α :=
  ⟨Function.update p.used a true, Function.update p.count a 1⟩

/-- One more reference. -/
def share (p : RefPool α) (a : α) : RefPool α :=
  { p with count := Function.update p.count a (p.count a + 1) }

/-- One reference less; the last one gives the item back. -/
def drop (p : RefPool α) (a : α) : RefPool α :=
  if p.count a = 1 then ⟨Function.update p.used a false, Function.update p.count a 0⟩
  else { p with count := Function.update p.count a (p.count a - 1) }

/-- An item that is not in use has no references. -/
def Idle (p : RefPool α) : Prop :=
  ∀ a, p.used a = false → p.count a = 0

/-- The references `l` were handed out between `p₀` and `p`. -/
structure Lent (p₀ p : RefPool α) (l : List α) : Prop where
  used : ∀ a, p.used a = true ↔ p₀.used a = true ∨ a ∈ l
  count : ∀ a, p.count a = p₀.count a + l.count a

namespace Lent

theorem refl (p : RefPool α) : Lent p p [] where
  used a := by simp
  count a := by simp

theorem perm (h : Lent p₀ p l) (hl : l.Perm l') : Lent p₀ p l' where
  used a := by rw [h.used a, hl.mem_iff]
  count a := by rw [h.count a, hl.count_eq a]

/-- The pool is as it was. -/
theorem eq (h : Lent p₀ p []) : p = p₀ := by
  ext a
  · rw [Bool.eq_iff_iff, h.used a]
    simp
  · simp [h.count a]

theorem used_of_mem (h : Lent p₀ p l) (ha : a ∈ l) : p.used a = true :=
  (h.used a).mpr (Or.inr ha)

/-- A fresh item was not in use before, and no reference to it is out. -/
theorem fresh (h : Lent p₀ p l) (ha : p.used a = false) : p₀.used a = false ∧ a ∉ l := by
  constructor
  · rw [← Bool.not_eq_true]
    intro hused
    simp [(h.used a).mpr (Or.inl hused)] at ha
  · intro hmem
    simp [h.used_of_mem hmem] at ha

theorem idle (h : Lent p₀ p l) (hidle : p₀.Idle) : p.Idle := by
  intro a ha
  obtain ⟨hused, hmem⟩ := h.fresh ha
  rw [h.count a, hidle a hused, List.count_eq_zero_of_not_mem hmem]

theorem take (h : Lent p₀ p l) (hidle : p₀.Idle) (ha : p.used a = false) :
    Lent p₀ (p.take a) (a :: l) := by
  have hzero : p.count a = 0 := h.idle hidle a ha
  constructor
  · intro b
    by_cases hb : b = a
    · simp [RefPool.take, hb]
    · simp [RefPool.take, hb, h.used b]
  · intro b
    by_cases hb : b = a
    · have hcount := h.count a
      simp only [RefPool.take, hb, Function.update_self, List.count_cons_self]
      omega
    · rw [List.count_cons_of_ne (Ne.symm hb), ← h.count b]
      simp [RefPool.take, hb]

theorem share (h : Lent p₀ p l) (ha : p.used a = true) : Lent p₀ (p.share a) (a :: l) := by
  constructor
  · intro b
    by_cases hb : b = a
    · simp [RefPool.share, hb, ha]
    · simp [RefPool.share, hb, h.used b]
  · intro b
    by_cases hb : b = a
    · simp only [RefPool.share, hb, Function.update_self, List.count_cons_self, h.count a]
      exact Nat.add_assoc _ _ _
    · rw [List.count_cons_of_ne (Ne.symm hb), ← h.count b]
      simp [RefPool.share, hb]

/-- The item goes back exactly when neither an earlier reference nor another one of the
list is left. -/
theorem drop (h : Lent p₀ p (a :: l)) (hidle : p₀.Idle)
    (hlive : p₀.used a = true → 0 < p₀.count a) : Lent p₀ (p.drop a) l := by
  have hcount : p.count a = p₀.count a + (l.count a + 1) := by
    rw [h.count a, List.count_cons_self]
  have hother : ∀ b, b ≠ a → (p.used b = true ↔ p₀.used b = true ∨ b ∈ l) := by
    intro b hb
    simp [h.used b, hb]
  have hothers : ∀ b, b ≠ a → p.count b = p₀.count b + l.count b := by
    intro b hb
    rw [h.count b, List.count_cons_of_ne (Ne.symm hb)]
  unfold RefPool.drop
  by_cases hone : p.count a = 1
  · rw [if_pos hone]
    have hmem : a ∉ l := List.count_eq_zero.mp (by omega)
    have hfree : ¬p₀.used a = true := fun hused => by
      have := hlive hused
      omega
    constructor
    · intro b
      by_cases hb : b = a
      · simp [hb, hmem, hfree]
      · simpa [hb] using hother b hb
    · intro b
      by_cases hb : b = a
      · simp only [hb, Function.update_self]
        omega
      · simpa [hb] using hothers b hb
  · rw [if_neg hone]
    have hleft : p₀.used a = true ∨ a ∈ l := by
      by_cases hmem : a ∈ l
      · exact Or.inr hmem
      · have hzero := List.count_eq_zero_of_not_mem hmem
        refine Or.inl (Bool.of_not_eq_false fun hfree => ?_)
        have := hidle a hfree
        omega
    constructor
    · intro b
      by_cases hb : b = a
      · simp [hb, hleft, h.used_of_mem List.mem_cons_self]
      · exact hother b hb
    · intro b
      by_cases hb : b = a
      · simp only [hb, Function.update_self]
        omega
      · simpa [hb] using hothers b hb

end Lent

end RefPool

namespace ListGrowth

variable {ι α : Type*} {l : List ι} {i : ι}

/-- One more value. -/
theorem perm_filterMap {f g : ι → Option α} {a : α} (hnodup : l.Nodup) (hi : i ∈ l)
    (hrest : ∀ k ∈ l, k ≠ i → g k = f k) (hf : f i = none) (hg : g i = some a) :
    (l.filterMap g).Perm (a :: l.filterMap f) := by
  induction l with
  | nil => cases hi
  | cons k l ih =>
    obtain ⟨hk, hnodup⟩ := List.nodup_cons.mp hnodup
    by_cases hki : k = i
    · subst hki
      have hsame : l.filterMap g = l.filterMap f := by
        refine List.filterMap_congr fun j hj => hrest j (List.mem_cons_of_mem _ hj) ?_
        rintro rfl
        exact hk hj
      rw [List.filterMap_cons_some hg, List.filterMap_cons_none hf, hsame]
    · have htail := ih hnodup ((List.mem_cons.mp hi).resolve_left (Ne.symm hki))
        fun j hj => hrest j (List.mem_cons_of_mem _ hj)
      have hhead := hrest k List.mem_cons_self hki
      cases hfk : f k with
      | none => rwa [List.filterMap_cons_none (hhead.trans hfk), List.filterMap_cons_none hfk]
      | some b =>
        rw [List.filterMap_cons_some (hhead.trans hfk), List.filterMap_cons_some hfk]
        exact (htail.cons b).trans (List.Perm.swap a b _)

/-- More values in one row. -/
theorem perm_flatMap {f g : ι → List α} {more : List α} (hnodup : l.Nodup) (hi : i ∈ l)
    (hrest : ∀ k ∈ l, k ≠ i → g k = f k) (hg : (g i).Perm (more ++ f i)) :
    (l.flatMap g).Perm (more ++ l.flatMap f) := by
  induction l with
  | nil => cases hi
  | cons k l ih =>
    obtain ⟨hk, hnodup⟩ := List.nodup_cons.mp hnodup
    rw [List.flatMap_cons, List.flatMap_cons]
    by_cases hki : k = i
    · subst hki
      have hsame : l.flatMap g = l.flatMap f := by
        refine List.flatMap_congr fun j hj => hrest j (List.mem_cons_of_mem _ hj) ?_
        rintro rfl
        exact hk hj
      rw [hsame, ← List.append_assoc]
      exact hg.append_right _
    · have htail := ih hnodup ((List.mem_cons.mp hi).resolve_left (Ne.symm hki))
        fun j hj => hrest j (List.mem_cons_of_mem _ hj)
      rw [hrest k List.mem_cons_self hki]
      calc (f k ++ l.flatMap g).Perm (f k ++ (more ++ l.flatMap f)) := htail.append_left _
        _ = f k ++ more ++ l.flatMap f := (List.append_assoc _ _ _).symm
        _ |>.Perm (more ++ f k ++ l.flatMap f) := List.perm_append_comm.append_right _
        _ = more ++ (f k ++ l.flatMap f) := List.append_assoc _ _ _

end ListGrowth

end EnclaveOS
