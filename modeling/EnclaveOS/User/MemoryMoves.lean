import EnclaveOS.User.Readline

/-!
# MemoryMoves - memmove on pointers

`memmove` of `user_libc.c` with its pointers and counters of 32 bits.  A range that does
not wrap around is moved as by the function on numbers that the line editor's model uses.
-/

namespace EnclaveOS

open ByteMemory

/-- The bytes at the addresses of a process. -/
abbrev PtrBytes := BitVec 32 → BitVec 8

/-- `while (n--) *d++ = *s++`. -/
def moveUp (mem : PtrBytes) (d s : BitVec 32) : Nat → PtrBytes
  | 0 => mem
  | n + 1 => moveUp (Function.update mem d (mem s)) (d + 1#32) (s + 1#32) n

/-- `while (n--) *--d = *--s`. -/
def moveDown (mem : PtrBytes) (d s : BitVec 32) : Nat → PtrBytes
  | 0 => mem
  | n + 1 =>
    moveDown (Function.update mem (d - 1#32) (mem (s - 1#32))) (d - 1#32) (s - 1#32) n

/-- `memmove`: the memory and the pointer that is returned. -/
def memmovePtr (mem : PtrBytes) (dest src n : BitVec 32) : PtrBytes × BitVec 32 :=
  if dest < src then (moveUp mem dest src n.toNat, dest)
  else (moveDown mem (dest + n) (src + n) n.toNat, dest)

/-- The same bytes at the addresses and at their numbers. -/
def SameBytes (mem : PtrBytes) (bytes : Bytes) : Prop :=
  ∀ k < 2 ^ 32, mem (BitVec.ofNat 32 k) = bytes k

section Moves

variable {mem : PtrBytes} {bytes : Bytes} {d s n : Nat}

/-- A byte is stored in both. -/
theorem SameBytes.update (h : SameBytes mem bytes) (hd : d < 2 ^ 32) (hs : s < 2 ^ 32) :
    SameBytes (Function.update mem (BitVec.ofNat 32 d) (mem (BitVec.ofNat 32 s)))
      (Function.update bytes d (bytes s)) := by
  intro k hk
  by_cases heq : k = d
  · rw [heq, Function.update_self, Function.update_self, h s hs]
  · have hne : BitVec.ofNat 32 k ≠ BitVec.ofNat 32 d := by
      intro hsame
      have hnat := congrArg BitVec.toNat hsame
      rw [BitVec.toNat_ofNat, BitVec.toNat_ofNat, Nat.mod_eq_of_lt hk, Nat.mod_eq_of_lt hd] at hnat
      exact heq hnat
    rw [Function.update_of_ne hne, Function.update_of_ne heq, h k hk]

theorem moveUp_sameBytes (h : SameBytes mem bytes) (hd : d + n ≤ 2 ^ 32) (hs : s + n ≤ 2 ^ 32) :
    SameBytes (moveUp mem (BitVec.ofNat 32 d) (BitVec.ofNat 32 s) n) (copy bytes d s n) := by
  induction n generalizing mem bytes d s with
  | zero => exact h
  | succ n ih =>
    rw [moveUp, copy, ← BitVec.ofNat_add, ← BitVec.ofNat_add]
    apply ih
    · exact h.update (by omega) (by omega)
    · omega
    · omega

theorem moveDown_sameBytes (h : SameBytes mem bytes) (hd : d + n ≤ 2 ^ 32) (hs : s + n ≤ 2 ^ 32) :
    SameBytes (moveDown mem (BitVec.ofNat 32 (d + n)) (BitVec.ofNat 32 (s + n)) n)
      (copyBack bytes d s n) := by
  induction n generalizing mem bytes with
  | zero => exact h
  | succ n ih =>
    have hback : ∀ a : Nat, BitVec.ofNat 32 (a + (n + 1)) - 1#32 = BitVec.ofNat 32 (a + n) := by
      intro a
      rw [← Nat.add_assoc, BitVec.ofNat_add, BitVec.add_sub_cancel]
    rw [moveDown, copyBack, hback, hback]
    apply ih
    · exact h.update (by omega) (by omega)
    · omega
    · omega

/-- Pointers into ranges that do not wrap around move as their numbers do. -/
theorem memmovePtr_sameBytes {dest src num : BitVec 32} (h : SameBytes mem bytes)
    (hdest : dest.toNat + num.toNat ≤ 2 ^ 32) (hsrc : src.toNat + num.toNat ≤ 2 ^ 32) :
    SameBytes (memmovePtr mem dest src num).1 (memmove bytes dest.toNat src.toNat num.toNat) := by
  unfold memmovePtr memmove
  by_cases hlt : dest < src
  · have hnat : dest.toNat < src.toNat := hlt
    rw [if_pos hlt, if_pos hnat]
    have hup := moveUp_sameBytes h hdest hsrc
    rwa [BitVec.ofNat_toNat, BitVec.ofNat_toNat, BitVec.setWidth_eq, BitVec.setWidth_eq] at hup
  · have hnat : ¬ dest.toNat < src.toNat := hlt
    rw [if_neg hlt, if_neg hnat]
    have hdown := moveDown_sameBytes h hdest hsrc
    simpa only [BitVec.ofNat_add, BitVec.ofNat_toNat, BitVec.setWidth_eq] using hdown

/-- Every byte of the range is moved, whatever the overlap, and no other byte is changed. -/
theorem memmove_overlaps (mem : PtrBytes) (dest src n : BitVec 32)
    (hdest : dest.toNat + n.toNat ≤ 2 ^ 32) (hsrc : src.toNat + n.toNat ≤ 2 ^ 32) :
    (∀ i < n, (memmovePtr mem dest src n).1 (dest + i) = mem (src + i)) ∧
      (∀ a, (∀ i < n, a ≠ dest + i) → (memmovePtr mem dest src n).1 a = mem a) ∧
      (memmovePtr mem dest src n).2 = dest := by
  have hself : SameBytes mem fun k => mem (BitVec.ofNat 32 k) := fun _ _ => rfl
  have hmoved := memmovePtr_sameBytes hself hdest hsrc
  refine ⟨?_, ?_, ?_⟩
  · intro i hi
    have hlt : i.toNat < n.toNat := hi
    have hat := hmoved (dest.toNat + i.toNat) (by omega)
    rw [memmove_apply, if_pos ⟨by omega, by omega⟩, Nat.add_sub_cancel_left] at hat
    simpa only [BitVec.ofNat_add, BitVec.ofNat_toNat, BitVec.setWidth_eq] using hat
  · intro a ha
    have hat := hmoved a.toNat a.isLt
    rw [memmove_apply, if_neg] at hat
    · simpa only [BitVec.ofNat_toNat, BitVec.setWidth_eq] using hat
    · rintro ⟨hle, hlt⟩
      have hle' : dest ≤ a := hle
      have hoffset : (a - dest).toNat = a.toNat - dest.toNat := BitVec.toNat_sub_of_le hle'
      have hin : a - dest < n := by
        rw [BitVec.lt_def, hoffset]
        omega
      exact ha _ hin (by rw [BitVec.add_comm, BitVec.sub_add_cancel])
  · unfold memmovePtr
    split_ifs <;> rfl

/-- A move by one byte, up to the last address. -/
theorem memmove_overlaps_small :
    (∀ i < 2#32, (memmovePtr (fun a => a.setWidth 8) 0xFFFFFFFE#32 0xFFFFFFFD#32 2#32).1
        (0xFFFFFFFE#32 + i) = (0xFFFFFFFD#32 + i).setWidth 8) ∧
      (∀ a : BitVec 32, (∀ i < 2#32, a ≠ 0xFFFFFFFE#32 + i) →
        (memmovePtr (fun a => a.setWidth 8) 0xFFFFFFFE#32 0xFFFFFFFD#32 2#32).1 a =
          a.setWidth 8) ∧
      (memmovePtr (fun a => a.setWidth 8) 0xFFFFFFFE#32 0xFFFFFFFD#32 2#32).2 = 0xFFFFFFFE#32 :=
  memmove_overlaps _ _ _ _ (by decide) (by decide)

end Moves

end EnclaveOS
