import Mathlib.Data.List.Chain
import Mathlib.Data.List.Nodup
import Mathlib.Data.List.Perm.Subperm

/-!
# Foundation - lists made of pointers

Lists that exist only as pointers between nodes of an arbitrary type.  A circular
list is linked in both directions; a null-terminated list is threaded by one
pointer.  The pointers are functions, so that an update of a few nodes is described
by what the new functions are at these nodes and that they agree elsewhere.
-/

namespace EnclaveOS

variable {α : Type*} {next next' prev prev' : α → Option α} {x y z n : α} {l xs ys : List α}
  {h h' : Option α}

/-- `y` follows `x`, and the pointers say so in both directions. -/
def Linked (next prev : α → Option α) (x y : α) : Prop :=
  next x = some y ∧ prev y = some x

/-- The pointers lead from `x` through `xs` and back to `x`. -/
structure Ring (next prev : α → Option α) (x : α) (xs : List α) : Prop where
  nodup : (x :: xs).Nodup
  linked : (x :: (xs ++ [x])).IsChain (Linked next prev)

/-- A row of links survives edits of other nodes. -/
theorem isChain_linked_congr (hl : l.IsChain (Linked next prev))
    (hnext : ∀ a ∈ l.dropLast, next' a = next a) (hprev : ∀ b ∈ l.tail, prev' b = prev b) :
    l.IsChain (Linked next' prev') := by
  induction l with
  | nil => exact .nil
  | cons a rest ih =>
    cases rest with
    | nil => exact .singleton a
    | cons b rest =>
      rw [List.isChain_cons_cons] at hl ⊢
      have ha : next' a = next a := hnext a (by simp)
      have hb : prev' b = prev b := hprev b (by simp)
      refine ⟨⟨ha.trans hl.1.1, hb.trans hl.1.2⟩, ih hl.2 ?_ ?_⟩
      · intro c hc
        exact hnext c (by simp [hc])
      · intro c hc
        exact hprev c (by simp at hc ⊢; exact Or.inr hc)

namespace Ring

theorem next_self (hr : Ring next prev x []) : next x = some x := by
  have := hr.linked
  simp [Linked] at this
  exact this.1

theorem next_cons (hr : Ring next prev x (y :: ys)) : next x = some y :=
  (List.isChain_cons_cons.mp hr.linked).1.1

theorem last (hr : Ring next prev x (ys ++ [y])) : Linked next prev y x := by
  have := hr.linked
  rw [List.append_assoc, ← List.cons_append] at this
  exact (List.isChain_append_cons_cons.mp this).2.1

/-- The same nodes read from another one of them. -/
theorem rotate (hr : Ring next prev x (ys ++ y :: xs)) : Ring next prev y (xs ++ x :: ys) := by
  obtain ⟨hnodup, hlinked⟩ := hr
  have hperm : (y :: (xs ++ x :: ys)).Perm (x :: (ys ++ y :: xs)) := by
    have : (y :: xs ++ x :: ys).Perm (x :: ys ++ y :: xs) := List.perm_append_comm
    simpa using this
  refine ⟨hperm.nodup_iff.mpr hnodup, ?_⟩
  have hsplit : ((x :: ys) ++ y :: (xs ++ [x])).IsChain (Linked next prev) := by
    simpa using hlinked
  rw [List.isChain_split] at hsplit
  have : ((y :: xs) ++ x :: (ys ++ [y])).IsChain (Linked next prev) := by
    rw [List.isChain_split]
    exact ⟨by simpa using hsplit.2, by simpa using hsplit.1⟩
  simpa using this

/-- Every node of the ring can be the one from which it is read. -/
theorem from_mem (hr : Ring next prev x xs) (hy : y ∈ x :: xs) :
    ∃ ys, Ring next prev y ys ∧ ∀ z, z ∈ y :: ys ↔ z ∈ x :: xs := by
  rcases List.mem_cons.mp hy with rfl | hy
  · exact ⟨xs, hr, fun z => Iff.rfl⟩
  · obtain ⟨us, vs, rfl⟩ := List.append_of_mem hy
    refine ⟨vs ++ x :: us, hr.rotate, fun z => ?_⟩
    simp only [List.mem_cons, List.mem_append]
    tauto

/-- Following `next` stays in the ring, and `prev` leads back. -/
theorem next_mem (hr : Ring next prev x xs) (hy : y ∈ x :: xs) :
    ∃ z ∈ x :: xs, next y = some z ∧ prev z = some y := by
  obtain ⟨ys, hr', hmem⟩ := hr.from_mem hy
  cases ys with
  | nil =>
    have := hr'.linked
    simp [Linked] at this
    exact ⟨y, hy, this⟩
  | cons w ws =>
    have := (List.isChain_cons_cons.mp hr'.linked).1
    exact ⟨w, (hmem w).mp (by simp), this⟩

/-- Following `prev` stays in the ring, and `next` leads back. -/
theorem prev_mem (hr : Ring next prev x xs) (hy : y ∈ x :: xs) :
    ∃ z ∈ x :: xs, prev y = some z ∧ next z = some y := by
  obtain ⟨ys, hr', hmem⟩ := hr.from_mem hy
  rcases List.eq_nil_or_concat ys with rfl | ⟨us, w, rfl⟩
  · have := hr'.linked
    simp [Linked] at this
    exact ⟨y, hy, this.2, this.1⟩
  · rw [List.concat_eq_append] at hr' hmem
    have := hr'.last
    exact ⟨w, (hmem w).mp (by simp), this.2, this.1⟩

theorem congr (hr : Ring next prev x xs) (hnext : ∀ a ∈ x :: xs, next' a = next a)
    (hprev : ∀ a ∈ x :: xs, prev' a = prev a) : Ring next' prev' x xs := by
  refine ⟨hr.nodup, isChain_linked_congr hr.linked ?_ ?_⟩
  · intro a ha
    rw [← List.cons_append, List.dropLast_concat] at ha
    exact hnext a ha
  · intro a ha
    apply hprev a
    simp only [List.tail_cons, List.mem_append, List.mem_cons] at ha ⊢
    tauto

/-- Linking `n` in after `x`. -/
theorem insert (hr : Ring next prev x xs) (hn : n ∉ x :: xs)
    (hnextn : next' n = next x) (hprevn : prev' n = some x) (hnextx : next' x = some n)
    (hprevy : ∀ y, next x = some y → prev' y = some n)
    (hnext : ∀ a, a ≠ n → a ≠ x → next' a = next a)
    (hprev : ∀ b, b ≠ n → next x ≠ some b → prev' b = prev b) :
    Ring next' prev' x (n :: xs) := by
  have hnx : n ≠ x := fun e => hn (by simp [e])
  refine ⟨?_, ?_⟩
  · have := hr.nodup
    simp only [List.nodup_cons, List.mem_cons] at this hn ⊢
    tauto
  · rw [List.cons_append, List.isChain_cons_cons]
    refine ⟨⟨hnextx, hprevn⟩, ?_⟩
    cases xs with
    | nil =>
      have hself := hr.next_self
      simp only [List.nil_append, List.isChain_cons_cons, List.IsChain.singleton, and_true]
      exact ⟨hnextn.trans hself, hprevy x hself⟩
    | cons y ys =>
      have hy := hr.next_cons
      have hnodup := hr.nodup
      simp only [List.nodup_cons, List.mem_cons, not_or] at hnodup hn
      rw [List.cons_append, List.isChain_cons_cons]
      refine ⟨⟨hnextn.trans hy, hprevy y hy⟩, ?_⟩
      have hrow : (y :: (ys ++ [x])).IsChain (Linked next prev) :=
        (List.isChain_cons_cons.mp hr.linked).2
      apply isChain_linked_congr hrow
      · intro a ha
        rw [← List.cons_append, List.dropLast_concat] at ha
        apply hnext a
        · rintro rfl
          simp [hn] at ha
        · rintro rfl
          simp only [List.mem_cons] at ha
          tauto
      · intro b hb
        simp only [List.tail_cons, List.mem_append, List.mem_singleton] at hb
        apply hprev b
        · rintro rfl
          tauto
        · rintro hxb
          obtain rfl : y = b := Option.some.inj (hy.symm.trans hxb)
          rcases hb with hb | rfl <;> tauto

/-- Bypassing `z` in a ring that has another node. -/
theorem remove (hr : Ring next prev z (y :: ys))
    (hnextw : ∀ w, prev z = some w → next' w = next z)
    (hprevy : ∀ w, next z = some w → prev' w = prev z)
    (hnext : ∀ a, a ≠ z → prev z ≠ some a → next' a = next a)
    (hprev : ∀ b, b ≠ z → next z ≠ some b → prev' b = prev b) : Ring next' prev' y ys := by
  have hy := hr.next_cons
  have hnodup := hr.nodup
  rw [List.nodup_cons] at hnodup
  refine ⟨hnodup.2, ?_⟩
  rcases List.eq_nil_or_concat ys with rfl | ⟨us, w, rfl⟩
  · have hlast : Linked next prev y z := by
      rw [← List.nil_append [y]] at hr
      exact hr.last
    have hn := hnextw y hlast.2
    have hp := hprevy y hy
    simp only [List.nil_append, List.isChain_cons_cons, List.IsChain.singleton, and_true]
    exact ⟨hn.trans hy, hp.trans hlast.2⟩
  · rw [List.concat_eq_append] at hr hnodup ⊢
    have hlast : Linked next prev w z := by
      rw [← List.cons_append] at hr
      exact hr.last
    have hchain : ((z :: y :: us) ++ w :: [z]).IsChain (Linked next prev) := by
      simpa using hr.linked
    rw [List.isChain_split] at hchain
    have hrow : (y :: (us ++ [w])).IsChain (Linked next prev) :=
      (List.isChain_cons_cons.mp hchain.1).2
    simp only [List.mem_cons, List.mem_append, List.nodup_cons, not_or] at hnodup
    have : ((y :: us) ++ w :: [y]).IsChain (Linked next' prev') := by
      rw [List.isChain_split]
      constructor
      · apply isChain_linked_congr hrow
        · intro a ha
          rw [← List.cons_append, List.dropLast_concat] at ha
          apply hnext a
          · rintro rfl
            simp only [List.mem_cons] at ha
            tauto
          · intro hza
            obtain rfl : w = a := Option.some.inj (hlast.2.symm.trans hza)
            have hus := List.nodup_append.mp hnodup.2.2
            rcases List.mem_cons.mp ha with rfl | ha
            · exact hnodup.2.1.2.1 rfl
            · exact hus.2.2 _ ha _ (by simp) rfl
        · intro b hb
          simp only [List.tail_cons, List.mem_append, List.mem_singleton] at hb
          apply hprev b
          · rintro rfl
            rcases hb with hb | rfl
            · tauto
            · simp at hnodup
          · intro hzb
            obtain rfl : y = b := Option.some.inj (hy.symm.trans hzb)
            rcases hb with hb | rfl
            · tauto
            · simp at hnodup
      · rw [List.isChain_cons_cons]
        exact ⟨⟨(hnextw w hlast.2).trans hy, (hprevy y hy).trans hlast.2⟩, .singleton y⟩
    simpa using this

end Ring

/-- The pointers lead from `h` through the list and end with null. -/
def Threaded (next : α → Option α) : Option α → List α → Prop
  | h, [] => h = none
  | h, x :: xs => h = some x ∧ Threaded next (next x) xs

namespace Threaded

@[simp]
theorem nil_iff : Threaded next h [] ↔ h = none := Iff.rfl

@[simp]
theorem cons_iff : Threaded next h (x :: xs) ↔ h = some x ∧ Threaded next (next x) xs :=
  Iff.rfl

theorem congr (ht : Threaded next h l) (hnext : ∀ a ∈ l, next' a = next a) :
    Threaded next' h l := by
  induction l generalizing h with
  | nil => exact ht
  | cons x xs ih =>
    rw [cons_iff] at ht ⊢
    refine ⟨ht.1, ?_⟩
    rw [hnext x (by simp)]
    exact ih ht.2 fun a ha => hnext a (by simp [ha])

/-- The head pointer determines the list. -/
theorem unique (hl : Threaded next h l) (hxs : Threaded next h xs) : l = xs := by
  induction l generalizing h xs with
  | nil =>
    cases xs with
    | nil => rfl
    | cons x xs => simp [nil_iff.mp hl] at hxs
  | cons a l ih =>
    rw [cons_iff] at hl
    cases xs with
    | nil => simp [hl.1] at hxs
    | cons x xs =>
      rw [cons_iff, hl.1, Option.some.injEq] at hxs
      obtain ⟨rfl, hxs⟩ := hxs
      rw [ih hl.2 hxs]

theorem from_mem (ht : Threaded next h (xs ++ x :: ys)) : Threaded next (next x) ys := by
  induction xs generalizing h with
  | nil => exact (cons_iff.mp ht).2
  | cons a xs ih => exact ih (cons_iff.mp ht).2

/-- A list that ends visits no node twice. -/
theorem nodup (ht : Threaded next h l) : l.Nodup := by
  induction l generalizing h with
  | nil => exact .nil
  | cons x xs ih =>
    rw [cons_iff] at ht
    refine List.nodup_cons.mpr ⟨?_, ih ht.2⟩
    intro hx
    obtain ⟨us, vs, rfl⟩ := List.append_of_mem hx
    have hlen := congrArg List.length (ht.2.unique (from_mem ht.2))
    simp at hlen
    omega

theorem mem_of_next (ht : Threaded next h l) (hx : x ∈ l) (hy : next x = some y) : y ∈ l := by
  obtain ⟨us, vs, rfl⟩ := List.append_of_mem hx
  have hrest := from_mem ht
  cases vs with
  | nil => simp [hy] at hrest
  | cons v vs =>
    rw [cons_iff, hy, Option.some.injEq] at hrest
    simp [hrest.1]

theorem mem_of_head (ht : Threaded next (some x) l) : x ∈ l := by
  cases l with
  | nil => simp at ht
  | cons a l =>
    rw [cons_iff, Option.some.injEq] at ht
    simp [ht.1]

/-- A node that is pointed to is not the head. -/
theorem next_ne_head (ht : Threaded next (some x) l) (hy : y ∈ l) : next y ≠ some x := by
  intro hyx
  cases l with
  | nil => simp at ht
  | cons a l =>
    have hnodup := ht.nodup
    rw [List.nodup_cons] at hnodup
    rw [cons_iff, Option.some.injEq] at ht
    obtain ⟨rfl, hrest⟩ := ht
    rcases List.mem_cons.mp hy with rfl | hy
    · rw [hyx] at hrest
      cases l with
      | nil => simp at hrest
      | cons b l =>
        rw [cons_iff, Option.some.injEq] at hrest
        exact hnodup.1 (by simp [hrest.1])
    · exact hnodup.1 (hrest.mem_of_next hy hyx)

/-- No node points to itself. -/
theorem next_ne_self (ht : Threaded next h l) (hx : x ∈ l) : next x ≠ some x := by
  intro hxx
  obtain ⟨us, vs, rfl⟩ := List.append_of_mem hx
  have hrest := from_mem ht
  rw [hxx] at hrest
  have hnodup := ht.nodup
  rw [List.nodup_append] at hnodup
  exact (List.nodup_cons.mp hnodup.2.1).1 hrest.mem_of_head

/-- At most one node of the list points to a given one. -/
theorem next_inj (ht : Threaded next h l) (hx : x ∈ l) (hy : y ∈ l) (hxz : next x = some z)
    (hyz : next y = some z) : x = y := by
  induction l generalizing h with
  | nil => simp at hx
  | cons a l ih =>
    rw [cons_iff] at ht
    rw [List.mem_cons] at hx hy
    rcases hx with rfl | hx
    · rcases hy with rfl | hy
      · rfl
      · rw [hxz] at ht
        exact absurd hyz (next_ne_head ht.2 hy)
    · rcases hy with rfl | hy
      · rw [hyz] at ht
        exact absurd hxz (next_ne_head ht.2 hx)
      · exact ih ht.2 hx hy

theorem eq_nil (ht : Threaded next none l) : l = [] := by
  cases l with
  | nil => rfl
  | cons a l => simp at ht

/-- Putting a node in front. -/
theorem push (ht : Threaded next h l) (hnextn : next' n = h)
    (hnext : ∀ a ∈ l, next' a = next a) : Threaded next' (some n) (n :: l) := by
  refine cons_iff.mpr ⟨rfl, ?_⟩
  rw [hnextn]
  exact ht.congr hnext

/-- Taking `z` out: the pointer to it, which is the head or that of the node before
it, now leads past it. -/
theorem unlink [DecidableEq α] (ht : Threaded next h l) (hz : z ∈ l)
    (hhead : h' = if h = some z then next z else h)
    (hbefore : ∀ w ∈ l, next w = some z → next' w = next z)
    (hnext : ∀ w ∈ l, w ≠ z → next w ≠ some z → next' w = next w) :
    Threaded next' h' (l.erase z) := by
  induction l generalizing h h' with
  | nil => simp at hz
  | cons x xs ih =>
    have hnodup := ht.nodup
    rw [List.nodup_cons] at hnodup
    rw [cons_iff] at ht
    obtain ⟨rfl, hrest⟩ := ht
    by_cases hx : x = z
    · subst hx
      rw [List.erase_cons_head, hhead, if_pos rfl]
      apply hrest.congr
      intro w hw
      apply hnext w (by simp [hw])
      · rintro rfl
        exact hnodup.1 hw
      · intro hwx
        exact hnodup.1 (hrest.mem_of_next hw hwx)
    · rw [List.erase_cons_tail (by simpa using hx), cons_iff]
      have hz' : z ∈ xs := by
        rcases List.mem_cons.mp hz with rfl | hz
        · exact absurd rfl hx
        · exact hz
      refine ⟨by rw [hhead, if_neg (by simpa using hx)], ?_⟩
      apply ih hrest hz'
      · split_ifs with hxz
        · exact hbefore x (by simp) hxz
        · exact hnext x (by simp) hx hxz
      · intro w hw
        exact hbefore w (by simp [hw])
      · intro w hw
        exact hnext w (by simp [hw])

end Threaded

/-- The list that a pointer heads, if it ends within a bound. -/
def chainFrom (next : α → Option α) : Nat → Option α → Option (List α)
  | _, none => some []
  | 0, some _ => none
  | bound + 1, some x => (chainFrom next bound (next x)).map (x :: ·)

theorem chainFrom_eq_some {bound : Nat} :
    chainFrom next bound h = some l ↔ Threaded next h l ∧ l.length ≤ bound := by
  induction bound generalizing h l with
  | zero =>
    cases h with
    | none => cases l <;> simp [chainFrom]
    | some x => cases l <;> simp [chainFrom]
  | succ bound ih =>
    cases h with
    | none => cases l <;> simp [chainFrom]
    | some x =>
      cases l with
      | nil => simp [chainFrom]
      | cons y l =>
        rw [chainFrom, Option.map_eq_some_iff, Threaded.cons_iff]
        constructor
        · rintro ⟨l', hl', heq⟩
          cases heq
          obtain ⟨ht, hlen⟩ := ih.mp hl'
          exact ⟨⟨rfl, ht⟩, Nat.succ_le_succ hlen⟩
        · rintro ⟨⟨hx, ht⟩, hlen⟩
          cases hx
          exact ⟨l, ih.mpr ⟨ht, Nat.le_of_succ_le_succ hlen⟩, rfl⟩

end EnclaveOS
