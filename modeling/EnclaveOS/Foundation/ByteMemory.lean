import Mathlib.Logic.Function.Basic
import Mathlib.Tactic.SplitIfs

/-!
# Foundation - words and copies in a byte memory

Little-endian words in a memory of bytes, rows of words, and the byte loop of
`memcpy`.
-/

namespace EnclaveOS
namespace ByteMemory

/-- The bytes of a memory. -/
abbrev Bytes := Nat → BitVec 8

variable {mem mem' : Bytes} {a b : Nat}

/-- The word at an address. -/
def loadWord (mem : Bytes) (a : Nat) : BitVec 32 :=
  mem (a + 3) ++ mem (a + 2) ++ mem (a + 1) ++ mem a

/-- Writing the word at an address. -/
def storeWord (mem : Bytes) (a : Nat) (w : BitVec 32) : Bytes :=
  fun k => if a ≤ k ∧ k < a + 4 then w.extractLsb' (8 * (k - a)) 8 else mem k

/-- Copying byte after byte, first bytes first. -/
def copy (mem : Bytes) (dest src : Nat) : Nat → Bytes
  | 0 => mem
  | num + 1 => copy (Function.update mem dest (mem src)) (dest + 1) (src + 1) num

/-- Writing bytes from an address on. -/
def storeBytes (mem : Bytes) (a : Nat) : List (BitVec 8) → Bytes
  | [] => mem
  | b :: bs => storeBytes (Function.update mem a b) (a + 1) bs

/-- Writing words from an address on. -/
def storeRow (mem : Bytes) (a : Nat) : List (BitVec 32) → Bytes
  | [] => mem
  | w :: ws => storeRow (storeWord mem a w) (a + 4) ws

/-- The bytes from an address on. -/
def BytesAt (mem : Bytes) (a : Nat) (bs : List (BitVec 8)) : Prop :=
  ∀ i (hi : i < bs.length), mem (a + i) = bs[i]

/-- A row of words at an address. -/
def Holds (mem : Bytes) : Nat → List (BitVec 32) → Prop
  | _, [] => True
  | a, w :: ws => loadWord mem a = w ∧ Holds mem (a + 4) ws

theorem storeWord_of_outside {w : BitVec 32} {k : Nat} (h : k < a ∨ a + 4 ≤ k) :
    storeWord mem a w k = mem k :=
  if_neg (by omega)

/-- A byte after a store only depends on that byte before it. -/
theorem storeWord_congr {w : BitVec 32} {k : Nat} (h : mem k = mem' k) :
    storeWord mem a w k = storeWord mem' a w k := by
  unfold storeWord
  split_ifs
  · rfl
  · exact h

theorem loadWord_storeWord (w : BitVec 32) : loadWord (storeWord mem a w) a = w := by
  have hbyte : ∀ i < 4, storeWord mem a w (a + i) = w.extractLsb' (8 * i) 8 := by
    intro i hi
    unfold storeWord
    rw [if_pos (by omega), Nat.add_sub_cancel_left]
  have hfirst : storeWord mem a w a = w.extractLsb' 0 8 := hbyte 0 (by omega)
  unfold loadWord
  rw [hbyte 3 (by omega), hbyte 2 (by omega), hbyte 1 (by omega), hfirst]
  apply BitVec.eq_of_getLsbD_eq
  intro i hi
  simp only [BitVec.getLsbD_append, BitVec.getLsbD_extractLsb']
  grind

/-- A word only depends on its bytes, wherever they are. -/
theorem loadWord_congr (h : ∀ i < 4, mem (a + i) = mem' (b + i)) :
    loadWord mem a = loadWord mem' b := by
  unfold loadWord
  rw [h 3 (by omega), h 2 (by omega), h 1 (by omega)]
  congr 1
  exact h 0 (by omega)

theorem loadWord_storeWord_of_disjoint {w : BitVec 32} (h : b + 4 ≤ a ∨ a + 4 ≤ b) :
    loadWord (storeWord mem a w) b = loadWord mem b :=
  loadWord_congr fun _ _ => storeWord_of_outside (by omega)

/-- A copy is exact when it does not overlap its source from above. -/
theorem copy_apply (mem : Bytes) {dest src num : Nat} (h : dest < src ∨ src + num ≤ dest)
    (k : Nat) :
    copy mem dest src num k =
      if dest ≤ k ∧ k < dest + num then mem (src + (k - dest)) else mem k := by
  induction num generalizing mem dest src with
  | zero => exact (if_neg (by omega)).symm
  | succ num ih =>
    rw [copy, ih _ (by omega)]
    by_cases hk : k = dest
    · rw [if_neg (by omega), if_pos (by omega), hk, Function.update_self, Nat.sub_self]
      rfl
    · split_ifs
      · rw [Function.update_of_ne (by omega)]
        congr 1
        omega
      · omega
      · omega
      · exact Function.update_of_ne hk ..

theorem Holds.congr {ws : List (BitVec 32)}
    (h : Holds mem a ws) (heq : ∀ i < 4 * ws.length, mem' (b + i) = mem (a + i)) :
    Holds mem' b ws := by
  induction ws generalizing a b with
  | nil => trivial
  | cons w ws ih =>
    rw [List.length_cons] at heq
    refine ⟨?_, ih h.2 fun i hi => ?_⟩
    · rw [← h.1]
      exact loadWord_congr fun i hi => heq i (by omega)
    · rw [Nat.add_assoc, Nat.add_assoc]
      exact heq (4 + i) (by omega)

theorem holds_append {xs ys : List (BitVec 32)} :
    Holds mem a (xs ++ ys) ↔ Holds mem a xs ∧ Holds mem (a + 4 * xs.length) ys := by
  induction xs generalizing a with
  | nil => simp [Holds]
  | cons x xs ih =>
    have hlen : a + 4 + 4 * xs.length = a + 4 * (x :: xs).length := by
      rw [List.length_cons]
      omega
    rw [List.cons_append, Holds, Holds, ih, hlen, and_assoc]

theorem Holds.store_outside {ws : List (BitVec 32)} (h : Holds mem a ws) {w : BitVec 32}
    (hb : b + 4 ≤ a ∨ a + 4 * ws.length ≤ b) : Holds (storeWord mem b w) a ws :=
  h.congr fun _ _ => storeWord_of_outside (by omega)

/-- A store in front of a row. -/
theorem Holds.push {ws : List (BitVec 32)} (h : Holds mem a ws) (ha : 4 ≤ a) (w : BitVec 32) :
    Holds (storeWord mem (a - 4) w) (a - 4) (w :: ws) := by
  refine ⟨loadWord_storeWord w, ?_⟩
  rw [Nat.sub_add_cancel ha]
  exact h.store_outside (by omega)

/-- A store into a row. -/
theorem Holds.set {ws : List (BitVec 32)} (h : Holds mem a ws) {i : Nat} (hi : i < ws.length)
    (w : BitVec 32) : Holds (storeWord mem (a + 4 * i) w) a (ws.set i w) := by
  induction ws generalizing a i with
  | nil => cases hi
  | cons v ws ih =>
    cases i with
    | zero => exact ⟨loadWord_storeWord w, h.2.store_outside (by omega)⟩
    | succ i =>
      refine ⟨(loadWord_storeWord_of_disjoint (by omega)).trans h.1, ?_⟩
      have hrest := ih h.2 (Nat.lt_of_succ_lt_succ hi)
      rw [show a + 4 * (i + 1) = a + 4 + 4 * i by omega]
      exact hrest

theorem storeBytes_of_outside {bs : List (BitVec 8)} {k : Nat} (h : k < a ∨ a + bs.length ≤ k) :
    storeBytes mem a bs k = mem k := by
  induction bs generalizing mem a with
  | nil => rfl
  | cons b bs ih =>
    rw [List.length_cons] at h
    rw [storeBytes, ih (by omega), Function.update_of_ne (by omega)]

theorem storeBytes_append (mem : Bytes) (a : Nat) (bs cs : List (BitVec 8)) :
    storeBytes mem a (bs ++ cs) = storeBytes (storeBytes mem a bs) (a + bs.length) cs := by
  induction bs generalizing mem a with
  | nil => rfl
  | cons b bs ih =>
    rw [List.cons_append, storeBytes, storeBytes, ih, List.length_cons,
      show a + 1 + bs.length = a + (bs.length + 1) by omega]

theorem bytesAt_storeBytes (mem : Bytes) (a : Nat) (bs : List (BitVec 8)) :
    BytesAt (storeBytes mem a bs) a bs := by
  induction bs generalizing mem a with
  | nil =>
    intro i hi
    cases hi
  | cons b bs ih =>
    intro i hi
    cases i with
    | zero =>
      rw [storeBytes, storeBytes_of_outside (Or.inl (by omega)), Nat.add_zero,
        Function.update_self]
      rfl
    | succ i =>
      have hrest := ih (Function.update mem a b) (a + 1) i (Nat.lt_of_succ_lt_succ hi)
      rwa [Nat.add_assoc, Nat.add_comm 1 i] at hrest

theorem BytesAt.congr {bs : List (BitVec 8)} (h : BytesAt mem a bs)
    (heq : ∀ k, a ≤ k → k < a + bs.length → mem' k = mem k) : BytesAt mem' a bs := by
  intro i hi
  rw [heq (a + i) (by omega) (by omega)]
  exact h i hi

theorem storeRow_of_outside {ws : List (BitVec 32)} {k : Nat}
    (h : k < a ∨ a + 4 * ws.length ≤ k) : storeRow mem a ws k = mem k := by
  induction ws generalizing mem a with
  | nil => rfl
  | cons w ws ih =>
    rw [List.length_cons] at h
    rw [storeRow, ih (by omega), storeWord_of_outside (by omega)]

theorem loadWord_storeRow_of_outside {ws : List (BitVec 32)}
    (h : b + 4 ≤ a ∨ a + 4 * ws.length ≤ b) : loadWord (storeRow mem a ws) b = loadWord mem b :=
  loadWord_congr fun _ _ => storeRow_of_outside (by omega)

theorem holds_storeRow (mem : Bytes) (a : Nat) (ws : List (BitVec 32)) :
    Holds (storeRow mem a ws) a ws := by
  induction ws generalizing mem a with
  | nil => trivial
  | cons w ws ih =>
    refine ⟨?_, ih _ _⟩
    rw [storeRow, loadWord_storeRow_of_outside (Or.inl (Nat.le_refl _)), loadWord_storeWord]

end ByteMemory
end EnclaveOS
