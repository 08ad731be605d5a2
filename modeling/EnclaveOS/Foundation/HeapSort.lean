import Mathlib.Data.List.Range
import Mathlib.Logic.Equiv.Basic

/-!
# Foundation - sorting with a heap

A heap in the first places of a sequence: the children of place `i` are the places
`2 * i + 1` and `2 * i + 2`, and no child is larger than its parent.  An item that is
too small for its place sinks below its larger children.
-/

namespace EnclaveOS
namespace HeapSort

/-- Any two items compare, and the comparison is transitive. -/
structure TotalPreorder {α : Type*} (le : α → α → Prop) : Prop where
  total : ∀ a b, le a b ∨ le b a
  trans : ∀ {a b c}, le a b → le b c → le a c

namespace TotalPreorder

variable {α : Type*} {le : α → α → Prop} {a b : α}

theorem refl (h : TotalPreorder le) (a : α) : le a a :=
  (h.total a a).elim id id

theorem of_not (h : TotalPreorder le) (hnot : ¬le a b) : le b a :=
  (h.total a b).resolve_left hnot

end TotalPreorder

variable {α : Type*} (le : α → α → Prop) [DecidableRel le]

/-- Two items change places. -/
def exchange (f : Nat → α) (i j : Nat) : Nat → α :=
  f ∘ Equiv.swap i j

/-- The larger one of `root` and its first child. -/
def larger (f : Nat → α) (root : Nat) : Nat :=
  if le (f (root * 2 + 1)) (f root) then root else root * 2 + 1

/-- The largest one of `root` and its children up to `last`, one at least. -/
def largest (last : Nat) (f : Nat → α) (root : Nat) : Nat :=
  if root * 2 + 2 ≤ last ∧ ¬le (f (root * 2 + 2)) (f (larger le f root)) then root * 2 + 2
  else larger le f root

/-- The item at `root` sinks. -/
def siftDown (last : Nat) : (rounds root : Nat) → (Nat → α) → Nat → α
  | 0, _, f => f
  | rounds + 1, root, f =>
    if root * 2 + 1 ≤ last then
      if largest le last f root = root then f
      else
        siftDown last rounds (largest le last f root) (exchange f root (largest le last f root))
    else f

/-- Every place below `count` sinks, the last one first. -/
def buildHeap (last rounds count : Nat) (f : Nat → α) : Nat → α :=
  (List.range count).reverse.foldl (fun f start => siftDown le last rounds start f) f

/-- The largest item goes to the end of the heap, which gets shorter. -/
def unheap (rounds last : Nat) (f : Nat → α) : Nat → α :=
  (List.range last).reverse.foldl (fun f i => siftDown le i rounds 0 (exchange f 0 (i + 1))) f

variable {le} {f g : Nat → α} {last rounds root start i c : Nat}

@[simp]
theorem exchange_left (f : Nat → α) (i j : Nat) : exchange f i j i = f j :=
  congrArg f (Equiv.swap_apply_left i j)

@[simp]
theorem exchange_right (f : Nat → α) (i j : Nat) : exchange f i j j = f i :=
  congrArg f (Equiv.swap_apply_right i j)

theorem exchange_of_ne {i j k : Nat} (hi : k ≠ i) (hj : k ≠ j) : exchange f i j k = f k :=
  congrArg f (Equiv.swap_apply_of_ne_of_ne hi hj)

/-- `c` is a child of `i`. -/
def IsChild (c i : Nat) : Prop := c = i * 2 + 1 ∨ c = i * 2 + 2

theorem IsChild.lt (h : IsChild c i) : i < c := by
  unfold IsChild at h
  omega

theorem largest_cases (hlast : root * 2 + 1 ≤ last) :
    largest le last f root = root ∨
      IsChild (largest le last f root) root ∧ largest le last f root ≤ last := by
  unfold largest
  split_ifs with hnext
  · exact Or.inr ⟨Or.inr rfl, hnext.1⟩
  · unfold larger
    split_ifs
    · exact Or.inl rfl
    · exact Or.inr ⟨Or.inl rfl, hlast⟩

theorem le_larger (h : TotalPreorder le) (hc : c = root ∨ c = root * 2 + 1) :
    le (f c) (f (larger le f root)) := by
  unfold larger
  split_ifs with hchild
  · cases hc with
    | inl hroot => rw [hroot]; exact h.refl _
    | inr hfirst => rw [hfirst]; exact hchild
  · cases hc with
    | inl hroot => rw [hroot]; exact h.of_not hchild
    | inr hfirst => rw [hfirst]; exact h.refl _

theorem le_largest (h : TotalPreorder le) (hc : c = root ∨ IsChild c root ∧ c ≤ last) :
    le (f c) (f (largest le last f root)) := by
  by_cases hsecond : c = root * 2 + 2
  · have hin : root * 2 + 2 ≤ last := by
      unfold IsChild at hc
      omega
    subst hsecond
    unfold largest
    split_ifs with hnext
    · exact h.refl _
    · by_contra hnot
      exact hnext ⟨hin, hnot⟩
  · have hfirst : le (f c) (f (larger le f root)) := by
      apply le_larger h
      unfold IsChild at hc
      omega
    unfold largest
    split_ifs with hnext
    · exact h.trans hfirst (h.of_not hnext.2)
    · exact hfirst

/-- A heap from place `start` to place `last`. -/
def IsHeap (le : α → α → Prop) (start last : Nat) (f : Nat → α) : Prop :=
  ∀ i c, start ≤ i → IsChild c i → c ≤ last → le (f c) (f i)

/-- A heap but for the item at `root`, which may be too small; the items below it are not
larger than the one above it. -/
structure Sinking (le : α → α → Prop) (start last root : Nat) (f : Nat → α) : Prop where
  heap : ∀ i c, start ≤ i → i ≠ root → IsChild c i → c ≤ last → le (f c) (f i)
  above : ∀ p c, start ≤ p → IsChild root p → IsChild c root → c ≤ last → le (f c) (f p)

omit [DecidableRel le] in
theorem IsHeap.sinking (h : IsHeap le (start + 1) last f) : Sinking le start last start f where
  heap i c hi hne hc hlast := h i c (by omega) hc hlast
  above p c hp hroot := by
    have := hroot.lt
    omega

omit [DecidableRel le] in
/-- The item goes down one level. -/
theorem Sinking.sink (h : Sinking le start last root f)
    (hroot : start ≤ root) {m : Nat} (hm : IsChild m root) (hlast : m ≤ last)
    (hmax : ∀ c, c = root ∨ IsChild c root ∧ c ≤ last → le (f c) (f m)) :
    Sinking le start last m (exchange f root m) := by
  have hlt := hm.lt
  constructor
  · intro i c hi him hc hc_last
    have hic := hc.lt
    by_cases hir : i = root
    · subst hir
      rw [exchange_left]
      by_cases hcm : c = m
      · rw [hcm, exchange_right]
        exact hmax i (Or.inl rfl)
      · rw [exchange_of_ne (by omega) hcm]
        exact hmax c (Or.inr ⟨hc, hc_last⟩)
    · rw [exchange_of_ne hir him]
      by_cases hcr : c = root
      · subst hcr
        rw [exchange_left]
        exact h.above i m hi hc hm hlast
      · have hcm : c ≠ m := by
          rintro rfl
          unfold IsChild at hm hc
          omega
        rw [exchange_of_ne hcr hcm]
        exact h.heap i c hi hir hc hc_last
  · intro p c hp hmp hc hc_last
    have hpr : p = root := by
      unfold IsChild at hm hmp
      omega
    have hmc := hc.lt
    subst hpr
    rw [exchange_left, exchange_of_ne (by omega) (by omega)]
    exact h.heap m c (by omega) (by omega) hc hc_last

/-- Sinking restores the heap. -/
theorem siftDown_heap (hle : TotalPreorder le) (hroot : start ≤ root)
    (hrounds : last < root + rounds) (h : Sinking le start last root f) :
    IsHeap le start last (siftDown le last rounds root f) := by
  induction rounds generalizing root f with
  | zero =>
    intro i c hi hc hc_last
    have := hc.lt
    exact h.heap i c hi (by omega) hc hc_last
  | succ rounds ih =>
    rw [siftDown]
    by_cases hchild : root * 2 + 1 ≤ last
    · have hmax : ∀ c, c = root ∨ IsChild c root ∧ c ≤ last →
          le (f c) (f (largest le last f root)) := fun c hc => le_largest hle hc
      rw [if_pos hchild]
      cases @largest_cases _ le _ f _ _ hchild with
      | inl hstay =>
        rw [if_pos hstay]
        rw [hstay] at hmax
        intro i c hi hc hc_last
        by_cases hir : i = root
        · rw [hir] at hc ⊢
          exact hmax c (Or.inr ⟨hc, hc_last⟩)
        · exact h.heap i c hi hir hc hc_last
      | inr hsink =>
        obtain ⟨hm, hm_last⟩ := hsink
        have hlt := hm.lt
        rw [if_neg (by omega)]
        exact ih (by omega) (by omega) (h.sink hroot hm hm_last hmax)
    · rw [if_neg hchild]
      intro i c hi hc hc_last
      by_cases hir : i = root
      · unfold IsChild at hc
        omega
      · exact h.heap i c hi hir hc hc_last

/-- The items of the first `count` places in another order. -/
def Rearranged (count : Nat) (f g : Nat → α) : Prop :=
  ∃ σ : Equiv.Perm Nat, (∀ k, count ≤ k → σ k = k) ∧ g = f ∘ σ

namespace Rearranged

variable {count : Nat} {k : Nat → α}

theorem refl (count : Nat) (f : Nat → α) : Rearranged count f f :=
  ⟨Equiv.refl Nat, fun _ _ => rfl, rfl⟩

theorem trans (h : Rearranged count f g) (h' : Rearranged count g k) : Rearranged count f k := by
  obtain ⟨σ, hσ, rfl⟩ := h
  obtain ⟨τ, hτ, rfl⟩ := h'
  refine ⟨τ.trans σ, fun k hk => ?_, rfl⟩
  rw [Equiv.trans_apply, hτ k hk, hσ k hk]

theorem mono (h : Rearranged count f g) {count' : Nat} (hcount : count ≤ count') :
    Rearranged count' f g := by
  obtain ⟨σ, hσ, hg⟩ := h
  exact ⟨σ, fun k hk => hσ k (hcount.trans hk), hg⟩

theorem exchange {i j : Nat} (hi : i < count) (hj : j < count) (f : Nat → α) :
    Rearranged count f (exchange f i j) :=
  ⟨Equiv.swap i j, fun _ hk => Equiv.swap_apply_of_ne_of_ne (by omega) (by omega), rfl⟩

theorem beyond (h : Rearranged count f g) (hi : count ≤ i) : g i = f i := by
  obtain ⟨σ, hσ, rfl⟩ := h
  exact congrArg f (hσ i hi)

/-- An item comes from one of the places. -/
theorem item (h : Rearranged count f g) (hi : i < count) : ∃ k < count, g i = f k := by
  obtain ⟨σ, hσ, rfl⟩ := h
  refine ⟨σ i, ?_, rfl⟩
  by_contra hnot
  have hfixed := hσ (σ i) (Nat.le_of_not_lt hnot)
  rw [σ.injective hfixed] at hnot
  exact hnot hi

end Rearranged

variable (le) in
theorem siftDown_rearranged (last rounds root : Nat) (f : Nat → α) :
    Rearranged (last + 1) f (siftDown le last rounds root f) := by
  induction rounds generalizing root f with
  | zero => exact .refl _ f
  | succ rounds ih =>
    rw [siftDown]
    split_ifs with hchild hstay
    · exact .refl _ f
    · have hm : largest le last f root ≤ last :=
        ((largest_cases hchild).resolve_left hstay).2
      exact (Rearranged.exchange (by omega) (by omega) f).trans (ih _ _)
    · exact .refl _ f

/-- Making the heap from the last parent on. -/
theorem buildHeap_heap (hle : TotalPreorder le) (hrounds : last < rounds) (count : Nat)
    (h : IsHeap le count last f) : IsHeap le 0 last (buildHeap le last rounds count f) := by
  unfold buildHeap
  induction count generalizing f with
  | zero => exact h
  | succ count ih =>
    rw [List.range_succ, List.reverse_concat, List.foldl_cons]
    exact ih (siftDown_heap hle le_rfl (by omega) h.sinking)

variable (le) in
theorem buildHeap_rearranged (last rounds count : Nat) (f : Nat → α) :
    Rearranged (last + 1) f (buildHeap le last rounds count f) := by
  unfold buildHeap
  induction count generalizing f with
  | zero => exact .refl _ f
  | succ count ih =>
    rw [List.range_succ, List.reverse_concat, List.foldl_cons]
    exact (siftDown_rearranged le last rounds count f).trans (ih _)

theorem isHeap_of_leaves (h : last < start * 2 + 1) (f : Nat → α) : IsHeap le start last f := by
  intro i c hi hc hlast
  unfold IsChild at hc
  omega

omit [DecidableRel le] in
/-- The first item of a heap is the largest one. -/
theorem IsHeap.le_first (h : IsHeap le 0 last f) (hle : TotalPreorder le) (hi : i ≤ last) :
    le (f i) (f 0) := by
  induction i using Nat.strongRecOn with
  | ind i ih =>
    by_cases hzero : i = 0
    · subst hzero
      exact hle.refl _
    · have hparent : IsChild i ((i - 1) / 2) := by
        unfold IsChild
        omega
      exact hle.trans (h _ i (Nat.zero_le _) hparent hi) (ih _ hparent.lt (by omega))

/-- A heap up to `last`, and behind it the largest items in order. -/
structure HalfSorted (le : α → α → Prop) (count last : Nat) (f : Nat → α) : Prop where
  heap : IsHeap le 0 last f
  below : ∀ i j, i ≤ last → last < j → j < count → le (f i) (f j)
  sorted : ∀ i j, last < i → i ≤ j → j < count → le (f i) (f j)

/-- One item more is in its place. -/
theorem HalfSorted.take {count : Nat} (h : HalfSorted le count (last + 1) f)
    (hle : TotalPreorder le) (hrounds : last < rounds) :
    HalfSorted le count last (siftDown le last rounds 0 (exchange f 0 (last + 1))) := by
  have hsinking : Sinking le 0 last 0 (exchange f 0 (last + 1)) := by
    constructor
    · intro i c hi hne hc hlast
      have hlt := hc.lt
      rw [exchange_of_ne (by omega) (by omega), exchange_of_ne hne (by omega)]
      exact h.heap i c hi hc (by omega)
    · intro p c hp hroot
      have := hroot.lt
      omega
  have hperm := siftDown_rearranged le last rounds 0 (exchange f 0 (last + 1))
  -- the largest item is behind the heap now
  have hbehind : ∀ j, last + 1 < j →
      siftDown le last rounds 0 (exchange f 0 (last + 1)) j = f j := by
    intro j hj
    rw [hperm.beyond (by omega), exchange_of_ne (by omega) (by omega)]
  have hlargest : siftDown le last rounds 0 (exchange f 0 (last + 1)) (last + 1) = f 0 := by
    rw [hperm.beyond le_rfl, exchange_right]
  have hitem : ∀ i ≤ last, ∃ k ≤ last + 1,
      siftDown le last rounds 0 (exchange f 0 (last + 1)) i = f k := by
    intro i hi
    obtain ⟨k, hk, heq⟩ := hperm.item (Nat.lt_succ_of_le hi)
    have hexchange : Rearranged (last + 2) f (exchange f 0 (last + 1)) :=
      .exchange (by omega) (by omega) f
    have hin : k < last + 2 := by omega
    obtain ⟨l, hl, heq'⟩ := hexchange.item hin
    exact ⟨l, by omega, heq.trans heq'⟩
  refine ⟨siftDown_heap hle le_rfl (by omega) hsinking, ?_, ?_⟩
  · intro i j hi hj hjcount
    obtain ⟨k, hk, heq⟩ := hitem i hi
    rw [heq]
    by_cases hjlast : j = last + 1
    · rw [hjlast, hlargest]
      exact h.heap.le_first hle hk
    · rw [hbehind j (by omega)]
      exact h.below k j hk (by omega) hjcount
  · intro i j hi hij hjcount
    by_cases hilast : i = last + 1
    · rw [hilast, hlargest]
      by_cases hjlast : j = last + 1
      · rw [hjlast, hlargest]
        exact hle.refl _
      · rw [hbehind j (by omega)]
        exact h.below 0 j (Nat.zero_le _) (by omega) hjcount
    · rw [hbehind i (by omega), hbehind j (by omega)]
      exact h.sorted i j (by omega) hij hjcount

theorem unheap_sorted (hle : TotalPreorder le) {count : Nat} (hrounds : last ≤ rounds)
    (h : HalfSorted le count last f) :
    ∀ i j, i ≤ j → j < count → le (unheap le rounds last f i) (unheap le rounds last f j) := by
  unfold unheap
  induction last generalizing f with
  | zero =>
    intro i j hij hj
    by_cases hi : i = 0
    · subst hi
      by_cases hj0 : j = 0
      · subst hj0
        exact hle.refl _
      · exact h.below 0 j le_rfl (by omega) hj
    · exact h.sorted i j (by omega) hij hj
  | succ last ih =>
    rw [List.range_succ, List.reverse_concat, List.foldl_cons]
    exact ih (by omega) (h.take hle (by omega))

variable (le) in
theorem unheap_rearranged (rounds last : Nat) (f : Nat → α) :
    Rearranged (last + 1) f (unheap le rounds last f) := by
  unfold unheap
  induction last generalizing f with
  | zero => exact .refl _ f
  | succ last ih =>
    rw [List.range_succ, List.reverse_concat, List.foldl_cons]
    have hfirst : Rearranged (last + 1 + 1) f (exchange f 0 (last + 1)) :=
      .exchange (by omega) (by omega) f
    have hsift := siftDown_rearranged le last rounds 0 (exchange f 0 (last + 1))
    exact (hfirst.trans (hsift.mono (by omega))).trans ((ih _).mono (by omega))

end HeapSort
end EnclaveOS
