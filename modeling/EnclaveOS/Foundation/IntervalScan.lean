import EnclaveOS.Foundation.IntervalMap
import Mathlib.Order.Nat

/-!
# Foundation - walks along a sorted list of intervals

A search may end as soon as the order rules out what follows.  A walk that carries the end of the
last interval seen finds the first gap of a given size.
-/

namespace EnclaveOS
namespace IntervalList

section Search

variable {α : Type*} {p past : α → Bool} {l : List α}

/-- The first item with a property, as long as none that is past it was seen. -/
def findUntil (p past : α → Bool) : List α → Option α
  | [] => none
  | a :: l => if p a then some a else if past a then none else findUntil p past l

/-- Nothing is lost when no item behind one that is past has the property. -/
theorem findUntil_eq_find? (h : l.Pairwise fun a b => past a = true → p b = false) :
    findUntil p past l = l.find? p := by
  induction l with
  | nil => rfl
  | cons a l ih =>
    obtain ⟨ha, hl⟩ := List.pairwise_cons.mp h
    rw [findUntil, List.find?_cons]
    cases hp : p a with
    | true => simp
    | false =>
      cases hpast : past a with
      | true =>
        have hnone : l.find? p = none :=
          List.find?_eq_none.mpr fun b hb => by simp [ha b hb hpast]
        simp [hnone]
      | false => simpa using ih hl

end Search

section Gap

variable {α : Type*} {lo hi : α → Nat} {size base x r : Nat} {l : List α}

/-- The place of `size` from `x` on lies apart from every item. -/
def Free (lo hi : α → Nat) (size : Nat) (l : List α) (x : Nat) : Prop :=
  ∀ a ∈ l, hi a ≤ x ∨ x + size ≤ lo a

/-- The first gap of `size` in front of an item, from `base` on. -/
def firstGap (lo hi : α → Nat) (size : Nat) : Nat → List α → Option Nat
  | _, [] => none
  | base, a :: l => if base + size ≤ lo a then some base else firstGap lo hi size (hi a) l

/-- The end of the last item. -/
def lastEnd (hi : α → Nat) : Nat → List α → Nat
  | base, [] => base
  | _, a :: l => lastEnd hi (hi a) l

/-- Each item ends before the next one starts, none is turned around. -/
structure Laid (lo hi : α → Nat) (base : Nat) (l : List α) : Prop where
  separated : Separated lo hi l
  le : ∀ a ∈ l, lo a ≤ hi a
  base_le : ∀ a ∈ l, base ≤ hi a

theorem Laid.tail {a : α} (h : Laid lo hi base (a :: l)) : Laid lo hi (hi a) l := by
  obtain ⟨hfirst, hl⟩ := List.pairwise_cons.mp h.separated
  constructor
  · exact hl
  · exact fun b hb => h.le b (List.mem_cons_of_mem a hb)
  · exact fun b hb => (hfirst b hb).trans (h.le b (List.mem_cons_of_mem a hb))

theorem Laid.head_le {a : α} (h : Laid lo hi base (a :: l)) : ∀ b ∈ l, hi a ≤ lo b :=
  (List.pairwise_cons.mp h.separated).1

/-- The gap that is found is free of every item, and lies in front of one. -/
theorem firstGap_free (h : Laid lo hi base l) (hgap : firstGap lo hi size base l = some r) :
    base ≤ r ∧ Free lo hi size l r ∧ ∃ a ∈ l, r + size ≤ lo a := by
  induction l generalizing base with
  | nil => cases hgap
  | cons a l ih =>
    rw [firstGap] at hgap
    split_ifs at hgap with hfit
    · cases hgap
      refine ⟨le_rfl, ?_, a, List.mem_cons_self, hfit⟩
      intro b hb
      cases hb with
      | head => exact Or.inr hfit
      | tail _ hb =>
        have hab := h.head_le b hb
        have hle := h.le a List.mem_cons_self
        exact Or.inr (by omega)
    · obtain ⟨hle, hfree, b, hb, hfront⟩ := ih h.tail hgap
      refine ⟨(h.base_le a List.mem_cons_self).trans hle, ?_, b, List.mem_cons_of_mem a hb, hfront⟩
      intro c hc
      cases hc with
      | head => exact Or.inl hle
      | tail _ hc => exact hfree c hc

/-- The gap that is found starts at the base or at the end of an item. -/
theorem firstGap_mem (hgap : firstGap lo hi size base l = some r) :
    r = base ∨ ∃ a ∈ l, hi a = r := by
  induction l generalizing base with
  | nil => cases hgap
  | cons a l ih =>
    rw [firstGap] at hgap
    split_ifs at hgap
    · cases hgap
      exact Or.inl rfl
    · cases ih hgap with
      | inl heq => exact Or.inr ⟨a, List.mem_cons_self, heq.symm⟩
      | inr hmem =>
        obtain ⟨b, hb, heq⟩ := hmem
        exact Or.inr ⟨b, List.mem_cons_of_mem a hb, heq⟩

/-- No free place lies below the gap that is found. -/
theorem firstGap_le (hfree : Free lo hi size l x) (hbase : base ≤ x)
    (hgap : firstGap lo hi size base l = some r) : r ≤ x := by
  induction l generalizing base with
  | nil => cases hgap
  | cons a l ih =>
    rw [firstGap] at hgap
    split_ifs at hgap with hfit
    · cases hgap
      exact hbase
    · apply ih (fun b hb => hfree b (List.mem_cons_of_mem a hb)) _ hgap
      have ha := hfree a List.mem_cons_self
      omega

/-- A free place in front of an item is not missed. -/
theorem firstGap_isSome (hfree : Free lo hi size l x) (hbase : base ≤ x)
    (hfront : ∃ a ∈ l, x + size ≤ lo a) : ∃ r, firstGap lo hi size base l = some r := by
  induction l generalizing base with
  | nil => simp at hfront
  | cons a l ih =>
    rw [firstGap]
    split_ifs with hfit
    · exact ⟨base, rfl⟩
    · have ha := hfree a List.mem_cons_self
      obtain ⟨b, hb, hle⟩ := hfront
      apply ih (fun b hb => hfree b (List.mem_cons_of_mem a hb)) (by omega)
      cases hb with
      | head => omega
      | tail _ hb => exact ⟨b, hb, hle⟩

theorem firstGap_isSome_iff (h : Laid lo hi base l) :
    (∃ r, firstGap lo hi size base l = some r) ↔
      ∃ x, base ≤ x ∧ Free lo hi size l x ∧ ∃ a ∈ l, x + size ≤ lo a := by
  constructor
  · rintro ⟨r, hgap⟩
    exact ⟨r, firstGap_free h hgap⟩
  · rintro ⟨x, hbase, hfree, hfront⟩
    exact firstGap_isSome hfree hbase hfront

/-- The last end is the base or the end of an item. -/
theorem lastEnd_mem (hi : α → Nat) (base : Nat) (l : List α) :
    lastEnd hi base l = base ∨ ∃ a ∈ l, hi a = lastEnd hi base l := by
  induction l generalizing base with
  | nil => exact Or.inl rfl
  | cons a l ih =>
    right
    rw [lastEnd]
    cases ih (hi a) with
    | inl heq => exact ⟨a, List.mem_cons_self, heq.symm⟩
    | inr hmem =>
      obtain ⟨b, hb, heq⟩ := hmem
      exact ⟨b, List.mem_cons_of_mem a hb, heq⟩

/-- No item ends behind the last end. -/
theorem le_lastEnd (h : Laid lo hi base l) :
    base ≤ lastEnd hi base l ∧ ∀ a ∈ l, hi a ≤ lastEnd hi base l := by
  induction l generalizing base with
  | nil => simp [lastEnd]
  | cons a l ih =>
    obtain ⟨hle, hall⟩ := ih h.tail
    rw [lastEnd]
    refine ⟨(h.base_le a List.mem_cons_self).trans hle, ?_⟩
    intro b hb
    cases hb with
    | head => exact hle
    | tail _ hb => exact hall b hb

theorem lastEnd_le (hbase : base ≤ x) (hall : ∀ a ∈ l, hi a ≤ x) : lastEnd hi base l ≤ x := by
  induction l generalizing base with
  | nil => exact hbase
  | cons a l ih =>
    exact ih (hall a List.mem_cons_self) fun b hb => hall b (List.mem_cons_of_mem a hb)

end Gap
end IntervalList
end EnclaveOS
