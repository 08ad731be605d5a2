import Mathlib.Data.List.GetD
import Mathlib.Data.List.Induction
import Mathlib.Order.Basic

/-!
# Foundation - sparse arrays

An array of known length whose gaps read as zero: a length and a total function
that is zero from the length on.  Writing at an offset past the length leaves a
gap.  The element type is arbitrary.
-/

namespace EnclaveOS

/-- An array whose entries are zero from its length on. -/
structure SparseArray (α : Type*) [Zero α] where
  len : Nat
  get : Nat → α
  beyond : ∀ i, len ≤ i → get i = 0

namespace SparseArray

variable {α : Type*} [Zero α]

/-- The array of length zero. -/
def empty : SparseArray α where
  len := 0
  get _ := 0
  beyond _ _ := rfl

/-- The entries of `values` stored from `offset` on. -/
def write (a : SparseArray α) (offset : Nat) (values : List α) : SparseArray α where
  len := max a.len (offset + values.length)
  get i :=
    if offset ≤ i ∧ i < offset + values.length then values.getD (i - offset) 0 else a.get i
  beyond i hi := by
    rw [if_neg (by omega)]
    exact a.beyond i (by omega)

/-- The entries of `[offset, offset + size)` that lie below the length. -/
def slice (a : SparseArray α) (offset size : Nat) : List α :=
  (List.range (min (offset + size) a.len - offset)).map fun i => a.get (offset + i)

/-- The array after a sequence of writes, the oldest first. -/
def ofWrites (ws : List (Nat × List α)) : SparseArray α :=
  ws.foldl (fun a w => a.write w.1 w.2) empty

@[simp]
theorem empty_len : (empty : SparseArray α).len = 0 := rfl

@[simp]
theorem write_len (a : SparseArray α) (offset : Nat) (values : List α) :
    (a.write offset values).len = max a.len (offset + values.length) := rfl

theorem write_get (a : SparseArray α) (offset : Nat) (values : List α) (i : Nat) :
    (a.write offset values).get i =
      if offset ≤ i ∧ i < offset + values.length then values.getD (i - offset) 0
      else a.get i := rfl

@[simp]
theorem slice_length (a : SparseArray α) (offset size : Nat) :
    (a.slice offset size).length = min (offset + size) a.len - offset := by
  simp [slice]

/-- What a slice of the array contains. -/
theorem getElem?_slice (a : SparseArray α) (offset size i : Nat) :
    (a.slice offset size)[i]? =
      if i < min (offset + size) a.len - offset then some (a.get (offset + i)) else none := by
  unfold slice
  rw [List.getElem?_map]
  by_cases hi : i < min (offset + size) a.len - offset
  · rw [if_pos hi, List.getElem?_range hi]
    rfl
  · rw [if_neg hi, List.getElem?_eq_none (by simpa using hi)]
    rfl

theorem ofWrites_concat (ws : List (Nat × List α)) (w : Nat × List α) :
    ofWrites (ws ++ [w]) = (ofWrites ws).write w.1 w.2 := by
  simp [ofWrites]

/-- The length is the largest end written. -/
theorem len_ofWrites (ws : List (Nat × List α)) :
    (ofWrites ws).len = (ws.map fun w => w.1 + w.2.length).foldl max 0 := by
  induction ws using List.reverseRecOn with
  | nil => rfl
  | append_singleton ws w ih => simp [ofWrites_concat, ih]

/-- The entries below the length. -/
def toList (a : SparseArray α) : List α := (List.range a.len).map a.get

@[simp]
theorem toList_length (a : SparseArray α) : a.toList.length = a.len := by
  simp [toList]

/-- Writing at the end appends. -/
theorem toList_write_len (a : SparseArray α) (values : List α) :
    (a.write a.len values).toList = a.toList ++ values := by
  apply List.ext_getElem
  · simp
  · intro i hi hi'
    simp only [toList, write_len, List.getElem_map, List.getElem_range, List.getElem_append,
      List.length_map, List.length_range, write_get]
    by_cases hold : i < a.len
    · simp [hold, Nat.not_le.mpr hold]
    · have hin : a.len ≤ i ∧ i < a.len + values.length := by
        simp at hi'
        omega
      have hlt : i - a.len < values.length := by omega
      simp [hold, hin, hlt]

/-- Two writes, one behind the other. -/
theorem write_write (a : SparseArray α) (offset : Nat) (xs ys : List α) :
    (a.write offset xs).write (offset + xs.length) ys = a.write offset (xs ++ ys) := by
  have hlen : max (max a.len (offset + xs.length)) (offset + xs.length + ys.length) =
      max a.len (offset + (xs ++ ys).length) := by
    rw [List.length_append]
    omega
  have hget : ((a.write offset xs).write (offset + xs.length) ys).get =
      (a.write offset (xs ++ ys)).get := by
    funext i
    simp only [write_get, List.length_append]
    by_cases hbefore : i < offset
    · rw [if_neg (by omega), if_neg (by omega), if_neg (by omega)]
    · by_cases hfirst : i < offset + xs.length
      · rw [if_neg (by omega), if_pos (by omega), if_pos (by omega),
          List.getD_append _ _ _ _ (by omega)]
      · by_cases hsecond : i < offset + xs.length + ys.length
        · rw [if_pos (by omega), if_pos (by omega), List.getD_append_right _ _ _ _ (by omega),
            Nat.sub_sub]
        · rw [if_neg (by omega), if_neg (by omega), if_neg (by omega)]
  unfold write at hget ⊢
  rw [SparseArray.mk.injEq]
  exact ⟨hlen, hget⟩

end SparseArray
end EnclaveOS
