import EnclaveOS.Memory.VmaMap
import EnclaveOS.Process.Syscall

/-!
# MprotectFailure - a failed mprotect

`vma_protect_range` edits the areas as it walks over them, and takes new nodes on its way.
Without memory it stops, and the areas before the one that it could not split keep their new flags.
-/

namespace EnclaveOS

open IntervalList

variable {start stop : Nat} {newFlags : Word} {vmas front back : List Vma} {v : Vma} {k : Kmalloc}

theorem flagsAt_append (vmas vmas' : List Vma) (addr : Nat) :
    flagsAt (vmas ++ vmas') addr = (flagsAt vmas addr).or (flagsAt vmas' addr) := by
  unfold flagsAt
  rw [itemAt_append]
  cases itemAt Vma.start Vma.end addr vmas <;> rfl

/-- An area in which the walk stops meets the range. -/
theorem StopsAt.meets (h : StopsAt (protectNeeded start stop) vmas k front v back) :
    start < v.end ∧ v.start < stop := by
  by_contra hout
  have hneeded : protectNeeded start stop v = 0 := by
    unfold protectNeeded
    rw [if_pos (by omega)]
  have hstops := h.stops
  rw [hneeded, Nat.add_zero, h.before] at hstops
  cases hstops

/-- Before an area that reaches over a range that is empty or inverted, no area is edited. -/
theorem StopsAt.front_outside (h : StopsAt (protectNeeded start stop) vmas k front v back)
    (hsep : VmasSeparated vmas) (hle : stop ≤ start) : ∀ u ∈ front, u.end ≤ start := by
  intro u hu
  have hmeets := h.meets
  rw [h.split] at hsep
  have hbefore := (List.pairwise_append.mp hsep).2.2 u hu v List.mem_cons_self
  omega

/-- The areas before the one in which the walk stops have their new flags. -/
theorem StopsAt.flagsAt_front (h : StopsAt (protectNeeded start stop) vmas k front v back)
    (hsep : VmasSeparated vmas) (addr : Nat) :
    flagsAt (front.flatMap (protectPieces start stop newFlags)) addr =
      (flagsAt front addr).map (protectedFlags start stop newFlags addr) := by
  have hfront : VmasSeparated front := by
    rw [h.split] at hsep
    exact (List.pairwise_append.mp hsep).1
  by_cases hlt : start < stop
  · exact flagsAt_protected hfront hlt addr
  · have hpieces : front.flatMap (protectPieces start stop newFlags) = front := by
      have hsame : ∀ u ∈ front, protectPieces start stop newFlags u = [u] := by
        intro u hu
        exact if_pos (Or.inl (h.front_outside hsep (by omega) u hu))
      rw [List.flatMap_congr hsame, List.flatMap_singleton']
    have hflags : protectedFlags start stop newFlags addr = id := by
      funext flags
      exact if_neg (by omega)
    rw [hpieces, hflags, Option.map_id]
    rfl

/-- The areas before the one in which the walk stops had their new flags before the call. -/
def FrontProtected (start stop : Nat) (newFlags : Word) (front : List Vma) : Prop :=
  ∀ u ∈ front, ∀ addr, u.start ≤ addr → addr < u.end → start ≤ addr → addr < stop →
    vmaProtectFlags u newFlags = u.flags

/-- What a walk that stops changes is what it changes in the areas before. -/
theorem StopsAt.unchanged_iff (h : StopsAt (protectNeeded start stop) vmas k front v back)
    (hsep : VmasSeparated vmas) :
    (∀ addr, flagsAt (vmaProtectRange start stop newFlags vmas k).1 addr = flagsAt vmas addr) ↔
      FrontProtected start stop newFlags front := by
  have hfront : VmasSeparated front := by
    have hsep' := hsep
    rw [h.split] at hsep'
    exact (List.pairwise_append.mp hsep').1
  have hafter : ∀ addr, flagsAt (vmaProtectRange start stop newFlags vmas k).1 addr =
      ((flagsAt front addr).map (protectedFlags start stop newFlags addr)).or
        (flagsAt (v :: back) addr) := by
    intro addr
    rw [((protect_walks start stop newFlags).stopsAt h).2, flagsAt_append,
      h.flagsAt_front hsep]
  have hbefore : ∀ addr, flagsAt vmas addr =
      (flagsAt front addr).or (flagsAt (v :: back) addr) := by
    intro addr
    rw [← flagsAt_append, ← h.split]
  constructor
  · intro hsame u hu addr hlow hhigh hstart hstop
    have hitem : itemAt Vma.start Vma.end addr front = some u :=
      (itemAt_eq_some_iff hfront).mpr ⟨hu, hlow, hhigh⟩
    have hflags : flagsAt front addr = some u.flags := congrArg (Option.map Vma.flags) hitem
    have heq := hsame addr
    rw [hafter, hbefore, hflags, Option.map_some, Option.some_or, Option.some_or,
      Option.some.injEq, protectedFlags, if_pos ⟨hstart, hstop⟩] at heq
    exact heq
  · intro hprotected addr
    rw [hafter, hbefore]
    cases hitem : itemAt Vma.start Vma.end addr front with
    | none => simp [flagsAt, hitem]
    | some u =>
      have hflags : flagsAt front addr = some u.flags := congrArg (Option.map Vma.flags) hitem
      obtain ⟨hu, hlow, hhigh⟩ := itemAt_mem hitem
      rw [hflags, Option.map_some, protectedFlags]
      split_ifs with hin
      · have hnew := hprotected u hu addr hlow hhigh hin.1 hin.2
        unfold vmaProtectFlags at hnew
        rw [hnew]
      · rfl

/-- A call that fails for lack of memory changes no flags exactly when the areas before the one that
it cannot split have their new flags; it changes no page-table entry. -/
theorem mprotect_atomic (vmas : List Vma) (hsep : VmasSeparated vmas) :
    (∀ (start stop : Nat) (newFlags : Word) (k : Kmalloc),
      ((vmaProtectRange start stop newFlags vmas k).2.1 = -eNoMem →
        ∀ addr, flagsAt (vmaProtectRange start stop newFlags vmas k).1 addr = flagsAt vmas addr) ↔
      ∀ front v back, StopsAt (protectNeeded start stop) vmas k front v back →
        FrontProtected start stop newFlags front) ∧
    ∀ (m : Machine) (pd addr len : Nat) (prot : Word) (k : Kmalloc),
      (sysMprotect m pd vmas addr len prot k).2.2.1 = -eNoMem →
        (sysMprotect m pd vmas addr len prot k).1 = m := by
  refine ⟨fun start stop newFlags k => ⟨fun hatomic front v back hstop => ?_,
    fun hprotected hret => ?_⟩, fun m pd addr len prot k hret => ?_⟩
  · have hret := ((protect_walks start stop newFlags).stopsAt hstop).1
    exact (hstop.unchanged_iff hsep).mp (hatomic hret)
  · obtain ⟨hzero, -⟩ | ⟨-, front, v, back, hstop, -⟩ :=
      (protect_walks start stop newFlags).cases vmas k
    · exact absurd (hzero.symm.trans hret) (by decide)
    · exact (hstop.unchanged_iff hsep).mpr (hprotected front v back hstop)
  · unfold sysMprotect at hret ⊢
    split_ifs at hret ⊢ with hlen hwx huser hmeets
    · rfl
    · rfl
    · rfl
    · rfl
    · rcases hrange : vmaProtectRange (pageDown addr) (rangeEnd addr len) (protVmaFlags prot) vmas
        k with ⟨vmas', ret, k'⟩
      rw [hrange] at hret
      dsimp only at hret ⊢
      split_ifs at hret ⊢ with hneg
      · rfl
      · exact absurd (show (0 : Int) = -eNoMem from hret) (by decide)

/-- Two areas next to each other; a range over the first and a half of the second. -/
def twoAreas : List Vma :=
  [⟨0x40000000, 0x40001000, vmaRead ||| vmaWrite⟩, ⟨0x40001000, 0x40003000, vmaRead ||| vmaWrite⟩]

/-- Without memory for the second half the first area has lost its write access. -/
theorem mprotect_keeps_edits : ¬∀ vmas : List Vma, VmasSeparated vmas →
    ∀ (start stop : Nat) (newFlags : Word) (k : Kmalloc),
      (vmaProtectRange start stop newFlags vmas k).2.1 = -eNoMem →
        ∀ addr, flagsAt (vmaProtectRange start stop newFlags vmas k).1 addr = flagsAt vmas addr := by
  intro h
  have hsame := h twoAreas (by simp [twoAreas, Separated]) 0x40000000 0x40002000 vmaRead [false]
    (by decide) 0x40000000
  exact absurd hsame (by decide)

/-- The first area has the new flags already, and the call that fails changes nothing. -/
theorem mprotect_atomic_sample :
    (vmaProtectRange 0x40000000 0x40002000 (vmaRead ||| vmaWrite) twoAreas [false]).2.1 =
        -eNoMem ∧
      ∀ addr, flagsAt (vmaProtectRange 0x40000000 0x40002000 (vmaRead ||| vmaWrite) twoAreas
        [false]).1 addr = flagsAt twoAreas addr := by
  have hsep : VmasSeparated twoAreas := by simp [twoAreas, Separated]
  refine ⟨by decide, ((mprotect_atomic twoAreas hsep).1 0x40000000 0x40002000
    (vmaRead ||| vmaWrite) [false]).mpr ?_ (by decide)⟩
  intro front v back hstop u hu addr _ _ _ _
  have hmem : u ∈ twoAreas := by
    rw [hstop.split]
    exact List.mem_append_left _ hu
  have hall : ∀ u ∈ twoAreas, vmaProtectFlags u (vmaRead ||| vmaWrite) = u.flags := by decide
  exact hall u hmem

end EnclaveOS
