import Mathlib.Data.List.Basic
import Mathlib.Order.Basic

/-!
# Foundation - lists of disjoint intervals in order

Items with a lower and an upper bound, kept in a list in strictly increasing
order of their lower bounds and without overlap.  Two kinds of update are
covered: replacing items by pieces of themselves, and inserting an item into a
gap.  The bounds are functions from an arbitrary item type to an ordered type.
-/

namespace EnclaveOS
namespace IntervalList

variable {α β : Type*} [Preorder β] {lo hi : α → β} {P : α → Prop}

/-- The item `a` lies in front of `b`. -/
def Precedes (lo hi : α → β) (a b : α) : Prop :=
  lo a < lo b ∧ hi a ≤ lo b

/-- The items are in order and do not overlap. -/
def Ordered (lo hi : α → β) (l : List α) : Prop :=
  l.Pairwise (Precedes lo hi)

theorem Precedes.trans {a b c : α} (hab : Precedes lo hi a b) (hbc : Precedes lo hi b c) :
    Precedes lo hi a c :=
  ⟨hab.1.trans hbc.1, hab.2.trans hbc.1.le⟩

/-- A part of the item `a`.  An empty part is allowed only at the start. -/
structure PieceOf (lo hi : α → β) (p a : α) : Prop where
  lo_le : lo a ≤ lo p
  hi_le : hi p ≤ hi a
  start : lo p = lo a ∨ lo p < hi a

theorem PieceOf.refl (a : α) : PieceOf lo hi a a :=
  ⟨le_rfl, le_rfl, Or.inl rfl⟩

/-- Pieces of ordered items are ordered. -/
theorem Precedes.pieces {a b p q : α} (h : Precedes lo hi a b) (hp : PieceOf lo hi p a)
    (hq : PieceOf lo hi q b) : Precedes lo hi p q := by
  refine ⟨?_, (hp.hi_le.trans h.2).trans hq.lo_le⟩
  rcases hp.start with heq | hlt
  · rw [heq]
    exact h.1.trans_le hq.lo_le
  · exact (hlt.trans_le h.2).trans_le hq.lo_le

/-- The list `l'` arises from `l` by replacing each item by ordered
pieces of it that satisfy `P`. -/
inductive Cut (lo hi : α → β) (P : α → Prop) : List α → List α → Prop where
  | nil : Cut lo hi P [] []
  | cons {a : α} (ps : List α) {l' l : List α} (hordered : Ordered lo hi ps)
      (hpieces : ∀ p ∈ ps, PieceOf lo hi p a ∧ P p) (hrest : Cut lo hi P l' l) :
      Cut lo hi P (ps ++ l') (a :: l)

namespace Cut

variable {l l' : List α} {a : α}

theorem refl (h : ∀ a ∈ l, P a) : Cut lo hi P l l := by
  induction l with
  | nil => exact .nil
  | cons a l ih =>
    refine .cons [a] (List.pairwise_singleton _ _) ?_
      (ih fun b hb => h b (List.mem_cons_of_mem a hb))
    intro p hp
    rw [List.mem_singleton] at hp
    subst hp
    exact ⟨PieceOf.refl p, h p List.mem_cons_self⟩

theorem drop (h : Cut lo hi P l' l) : Cut lo hi P l' (a :: l) :=
  .cons [] List.Pairwise.nil (by simp) h

theorem keep {p : α} (hp : PieceOf lo hi p a) (hP : P p) (h : Cut lo hi P l' l) :
    Cut lo hi P (p :: l') (a :: l) :=
  .cons [p] (List.pairwise_singleton _ _) (by simp [hp, hP]) h

theorem split {p q : α} (hpq : Precedes lo hi p q) (hp : PieceOf lo hi p a ∧ P p)
    (hq : PieceOf lo hi q a ∧ P q) (h : Cut lo hi P l' l) :
    Cut lo hi P (p :: q :: l') (a :: l) :=
  .cons [p, q] (by simp [Ordered, hpq]) (by simp [hp, hq]) h

theorem split₃ {p q r : α} (hpq : Precedes lo hi p q) (hqr : Precedes lo hi q r)
    (hp : PieceOf lo hi p a ∧ P p) (hq : PieceOf lo hi q a ∧ P q) (hr : PieceOf lo hi r a ∧ P r)
    (h : Cut lo hi P l' l) : Cut lo hi P (p :: q :: r :: l') (a :: l) :=
  .cons [p, q, r] (by simp [Ordered, hpq, hqr, hpq.trans hqr]) (by simp [hp, hq, hr]) h

/-- Every item of the result is a piece of an item of the source. -/
theorem mem (h : Cut lo hi P l' l) {p : α} (hp : p ∈ l') :
    ∃ a ∈ l, PieceOf lo hi p a ∧ P p := by
  induction h with
  | nil => cases hp
  | cons ps hordered hpieces hrest ih =>
    rcases List.mem_append.mp hp with hp | hp
    · exact ⟨_, List.mem_cons_self, hpieces p hp⟩
    · obtain ⟨b, hb, hpb⟩ := ih hp
      exact ⟨b, List.mem_cons_of_mem _ hb, hpb⟩

theorem ordered (h : Cut lo hi P l' l) (hl : Ordered lo hi l) : Ordered lo hi l' := by
  induction h with
  | nil => exact List.Pairwise.nil
  | cons ps hordered hpieces hrest ih =>
    obtain ⟨hfirst, hl⟩ := List.pairwise_cons.mp hl
    refine List.pairwise_append.mpr ⟨hordered, ih hl, fun p hp q hq => ?_⟩
    obtain ⟨b, hb, hqb, -⟩ := hrest.mem hq
    exact (hfirst b hb).pieces (hpieces p hp).1 hqb

end Cut

/-- Insertion between a part below the new item and a part above it. -/
theorem ordered_insert {l r : List α} {x : α} (h : Ordered lo hi (l ++ r))
    (hl : ∀ a ∈ l, Precedes lo hi a x) (hr : ∀ b ∈ r, Precedes lo hi x b) :
    Ordered lo hi (l ++ x :: r) := by
  obtain ⟨hleft, hright, hcross⟩ := List.pairwise_append.mp h
  refine List.pairwise_append.mpr ⟨hleft, List.pairwise_cons.mpr ⟨hr, hright⟩, ?_⟩
  intro a ha b hb
  rcases List.mem_cons.mp hb with rfl | hb
  · exact hl a ha
  · exact hcross a ha b hb

end IntervalList
end EnclaveOS
