import Mathlib.Data.List.Basic

/-!
# Overlay - ranges written one after another

Items that cover points each, laid over a function in the order of a list: an item replaces the
values at its points.  At every point the last item that covers it decides.
-/

namespace EnclaveOS

variable {ι α β : Type*} (covers : ι → α → Prop) [∀ i a, Decidable (covers i a)] (value : ι → α → β)

/-- The items laid over `base`, one after another. -/
def overlay : List ι → (α → β) → α → β
  | [], base => base
  | i :: rest, base => overlay rest fun a => if covers i a then value i a else base a

/-- The last item that covers a point. -/
def lastOver (l : List ι) (a : α) : Option ι := l.reverse.find? fun i => covers i a

@[simp]
theorem overlay_nil (base : α → β) : overlay covers value [] base = base :=
  rfl

@[simp]
theorem overlay_cons (i : ι) (rest : List ι) (base : α → β) :
    overlay covers value (i :: rest) base =
      overlay covers value rest fun a => if covers i a then value i a else base a :=
  rfl

variable {covers value} {l : List ι} {a : α} {i : ι} {base base' : α → β}

theorem lastOver_cons (i : ι) (rest : List ι) (a : α) :
    lastOver covers (i :: rest) a =
      (lastOver covers rest a).or (if covers i a then some i else none) := by
  unfold lastOver
  rw [List.reverse_cons, List.find?_append, List.find?_singleton]
  simp

theorem lastOver_mem (h : lastOver covers l a = some i) : i ∈ l :=
  List.mem_reverse.mp (List.mem_of_find?_eq_some h)

theorem lastOver_covers (h : lastOver covers l a = some i) : covers i a := by
  have hfound := List.find?_some h
  simpa using hfound

theorem lastOver_eq_none_iff : lastOver covers l a = none ↔ ∀ i ∈ l, ¬covers i a := by
  simp [lastOver]

theorem exists_lastOver (hmem : i ∈ l) (hcovers : covers i a) :
    ∃ last, lastOver covers l a = some last := by
  apply Option.isSome_iff_exists.mp
  exact List.find?_isSome.mpr ⟨i, List.mem_reverse.mpr hmem, decide_eq_true hcovers⟩

/-- The value at a point is that of the last item over it. -/
theorem overlay_eq (l : List ι) (base : α → β) (a : α) :
    overlay covers value l base a = ((lastOver covers l a).map (value · a)).getD (base a) := by
  induction l generalizing base with
  | nil => rfl
  | cons i rest ih =>
    rw [overlay_cons, ih, lastOver_cons]
    cases lastOver covers rest a with
    | some last => rfl
    | none =>
      by_cases hcovers : covers i a
      · simp [hcovers]
      · simp [hcovers]

theorem overlay_of_last (h : lastOver covers l a = some i) :
    overlay covers value l base a = value i a := by
  rw [overlay_eq, h]
  rfl

theorem overlay_of_unique (hmem : i ∈ l) (hcovers : covers i a)
    (hunique : ∀ j ∈ l, covers j a → j = i) : overlay covers value l base a = value i a := by
  obtain ⟨last, hlast⟩ := exists_lastOver hmem hcovers
  rw [overlay_of_last hlast, hunique last (lastOver_mem hlast) (lastOver_covers hlast)]

theorem overlay_of_forall_not (h : ∀ i ∈ l, ¬covers i a) :
    overlay covers value l base a = base a := by
  rw [overlay_eq, lastOver_eq_none_iff.mpr h]
  rfl

theorem overlay_congr (h : base a = base' a) :
    overlay covers value l base a = overlay covers value l base' a := by
  rw [overlay_eq, overlay_eq, h]

/-- Items whose values do not depend on the item. -/
theorem overlay_same (l : List ι) (v base : α → β) (a : α) [Decidable (∃ i ∈ l, covers i a)] :
    overlay covers (fun _ => v) l base a = if ∃ i ∈ l, covers i a then v a else base a := by
  split_ifs with h
  · obtain ⟨i, hmem, hcovers⟩ := h
    obtain ⟨last, hlast⟩ := exists_lastOver hmem hcovers
    exact overlay_of_last hlast
  · exact overlay_of_forall_not fun i hmem hcovers => h ⟨i, hmem, hcovers⟩

end EnclaveOS
