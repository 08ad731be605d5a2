import Mathlib.Data.List.Basic
import Mathlib.Order.Lattice

/-!
# Foundation - lines with a cursor

A line of characters with a cursor between two of them, the keys of a line editor, and lines that
are stored in a memory with a terminator behind them.  An edit in place moves the characters
behind the cursor together with the terminator.
-/

namespace EnclaveOS
namespace LineEditor

/-- A text and a cursor in front of one of its characters, or behind the last one. -/
@[ext]
structure Line (α : Type*) where
  text : List α
  cursor : Nat
  inside : cursor ≤ text.length

namespace Line

variable {α : Type*}

/-- The empty line. -/
def empty : Line α := ⟨[], 0, Nat.zero_le _⟩

/-- A text with the cursor behind it. -/
def atEnd (text : List α) : Line α := ⟨text, text.length, le_rfl⟩

/-- A character before the cursor, unless the line is full. -/
def insert (limit : Nat) (c : α) (l : Line α) : Line α :=
  if l.text.length < limit then
    ⟨l.text.take l.cursor ++ c :: l.text.drop l.cursor, l.cursor + 1, by
      have hinside := l.inside
      simp only [List.length_append, List.length_take, List.length_cons, List.length_drop]
      omega⟩
  else l

/-- The character at the cursor goes. -/
def delete (l : Line α) : Line α :=
  if h : l.cursor < l.text.length then
    ⟨l.text.take l.cursor ++ l.text.drop (l.cursor + 1), l.cursor, by
      simp only [List.length_append, List.length_take, List.length_drop]
      omega⟩
  else l

def left (l : Line α) : Line α :=
  ⟨l.text, l.cursor - 1, (Nat.sub_le _ _).trans l.inside⟩

def right (l : Line α) : Line α :=
  ⟨l.text, min (l.cursor + 1) l.text.length, Nat.min_le_right _ _⟩

/-- The character before the cursor goes. -/
def backspace (l : Line α) : Line α :=
  if 0 < l.cursor then l.left.delete else l

def home (l : Line α) : Line α := ⟨l.text, 0, Nat.zero_le _⟩

def toEnd (l : Line α) : Line α := atEnd l.text

/-- What is behind the cursor goes. -/
def cutAfter (l : Line α) : Line α := atEnd (l.text.take l.cursor)

/-- What is before the cursor goes. -/
def cutBefore (l : Line α) : Line α := ⟨l.text.drop l.cursor, 0, Nat.zero_le _⟩

end Line

variable {α : Type*} {mem mem' : Nat → α} {stop c : α} {l : List α} {pos : Nat}

/-- A line from the start of a memory on, and its terminator. -/
def Stored (mem : Nat → α) (stop : α) (l : List α) : Prop :=
  ∀ k ≤ l.length, mem k = l[k]?.getD stop

theorem Stored.insert (h : Stored mem stop l) (hpos : pos ≤ l.length)
    (hbefore : ∀ k < pos, mem' k = mem k) (hat : mem' pos = c)
    (hbehind : ∀ k, pos < k → k ≤ l.length + 1 → mem' k = mem (k - 1)) :
    Stored mem' stop (l.take pos ++ c :: l.drop pos) := by
  intro k hk
  simp only [List.length_append, List.length_take, List.length_cons, List.length_drop] at hk
  rw [List.getElem?_append, List.length_take, Nat.min_eq_left hpos]
  split_ifs with hlt
  · rw [hbefore k hlt, h k (by omega), List.getElem?_take, if_pos hlt]
  · by_cases heq : k = pos
    · rw [heq, hat, Nat.sub_self]
      rfl
    · obtain ⟨j, rfl⟩ : ∃ j, k = pos + (j + 1) := ⟨k - pos - 1, by omega⟩
      rw [hbehind _ (by omega) (by omega), h _ (by omega), Nat.add_sub_cancel_left,
        List.getElem?_cons_succ, List.getElem?_drop]
      rfl

theorem Stored.remove (h : Stored mem stop l) (hpos : pos < l.length)
    (hbefore : ∀ k < pos, mem' k = mem k)
    (hbehind : ∀ k, pos ≤ k → k < l.length → mem' k = mem (k + 1)) :
    Stored mem' stop (l.take pos ++ l.drop (pos + 1)) := by
  intro k hk
  simp only [List.length_append, List.length_take, List.length_drop] at hk
  rw [List.getElem?_append, List.length_take, Nat.min_eq_left hpos.le]
  split_ifs with hlt
  · rw [hbefore k hlt, h k (by omega), List.getElem?_take, if_pos hlt]
  · obtain ⟨j, rfl⟩ : ∃ j, k = pos + j := ⟨k - pos, by omega⟩
    rw [hbehind _ (by omega) (by omega), h _ (by omega), Nat.add_sub_cancel_left,
      List.getElem?_drop, Nat.add_right_comm]

theorem Stored.take (h : Stored mem stop l) (hpos : pos ≤ l.length)
    (hbefore : ∀ k < pos, mem' k = mem k) (hat : mem' pos = stop) :
    Stored mem' stop (l.take pos) := by
  intro k hk
  rw [List.length_take, Nat.min_eq_left hpos] at hk
  rw [List.getElem?_take]
  split_ifs with hlt
  · rw [hbefore k hlt, h k (by omega)]
  · rw [show k = pos by omega, hat]
    rfl

theorem Stored.drop (h : Stored mem stop l) (hpos : pos ≤ l.length)
    (hmoved : ∀ k, k + pos ≤ l.length → mem' k = mem (k + pos)) :
    Stored mem' stop (l.drop pos) := by
  intro k hk
  rw [List.length_drop] at hk
  rw [hmoved k (by omega), h _ (by omega), List.getElem?_drop, Nat.add_comm]

theorem Stored.stop_at (h : Stored mem stop l) : mem l.length = stop := by
  rw [h _ le_rfl, List.getElem?_eq_none le_rfl]
  rfl

/-- The line read back. -/
theorem Stored.range_map (h : Stored mem stop l) : (List.range l.length).map mem = l := by
  apply List.ext_getElem
  · simp
  · intro k hk hk'
    simp [h k hk'.le, hk']

/-- What is in front of a terminator. -/
theorem stored_range_map {n : Nat} (hstop : mem n = stop) :
    Stored mem stop ((List.range n).map mem) := by
  intro k hk
  rw [List.length_map, List.length_range] at hk
  by_cases hkn : k = n
  · simp [hkn, hstop]
  · simp [show k < n by omega]

end LineEditor
end EnclaveOS
