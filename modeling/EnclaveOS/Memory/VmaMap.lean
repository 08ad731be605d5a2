import EnclaveOS.Foundation.IntervalMap
import EnclaveOS.Memory.Vma

/-!
# VmaMap - the areas of a process as a map of addresses

What `vma_unmap_range` and `vma_protect_range` do to the flags of each address.  Both
replace every area by parts of it; the first stops without memory only inside one area, the second
also where it splits the last area of its range.
-/

namespace EnclaveOS

open IntervalList

/-- The flags of an address, if an area covers it. -/
def flagsAt (vmas : List Vma) (addr : Nat) : Option Word :=
  (itemAt Vma.start Vma.end addr vmas).map Vma.flags

/-- The areas are in order and disjoint. -/
abbrev VmasSeparated (vmas : List Vma) : Prop := Separated Vma.start Vma.end vmas

section Pieces

variable {start stop addr : Nat} {newFlags : Word} {v : Vma} {vmas : List Vma}

theorem flagsAt_cons : flagsAt (v :: vmas) addr =
    if v.start ≤ addr ∧ addr < v.end then some v.flags else flagsAt vmas addr := by
  unfold flagsAt
  split_ifs with h
  · rw [itemAt_cons_of_mem h]
    rfl
  · rw [itemAt_cons_of_not_mem h]

@[simp]
theorem flagsAt_nil : flagsAt [] addr = none :=
  rfl

theorem exists_of_flagsAt {flags : Word} (h : flagsAt vmas addr = some flags) :
    ∃ v ∈ vmas, (v.start ≤ addr ∧ addr < v.end) ∧ v.flags = flags := by
  obtain ⟨v, hitem, rfl⟩ := Option.map_eq_some_iff.mp h
  exact ⟨v, (itemAt_mem hitem).1, (itemAt_mem hitem).2, rfl⟩

/-- The flags after every area is replaced by parts of it. -/
theorem flagsAt_flatMap {parts : Vma → List Vma} (h : VmasSeparated vmas)
    (hparts : ∀ v ∈ vmas, Parts Vma.start Vma.end parts v) :
    flagsAt (vmas.flatMap parts) addr =
      (itemAt Vma.start Vma.end addr vmas).bind fun v => flagsAt (parts v) addr := by
  rw [flagsAt, itemAt_flatMap h hparts]
  cases itemAt Vma.start Vma.end addr vmas <;> rfl

/-- What is left of an area. -/
def unmapPieces (start stop : Nat) (v : Vma) : List Vma :=
  if v.end ≤ start ∨ v.start ≥ stop then [v]
  else if v.start ≥ start ∧ v.end ≤ stop then []
  else if start ≤ v.start ∧ stop > v.start ∧ stop < v.end then [{ v with start := stop }]
  else if start > v.start ∧ start < v.end ∧ stop ≥ v.end then [{ v with «end» := start }]
  else if start > v.start ∧ stop < v.end then
    [{ v with «end» := start }, ⟨stop, v.end, v.flags⟩]
  else [v]

/-- No address of the range is left, and every other one is. -/
theorem flagsAt_unmapPieces (haddr : v.start ≤ addr ∧ addr < v.end) :
    flagsAt (unmapPieces start stop v) addr =
      if start ≤ addr ∧ addr < stop then none else some v.flags := by
  unfold unmapPieces
  simp only [apply_ite (flagsAt · addr), flagsAt_cons, flagsAt_nil]
  split_ifs <;> first | rfl | omega

/-- The parts of an area when a range changes its flags. -/
def protectPieces (start stop : Nat) (newFlags : Word) (v : Vma) : List Vma :=
  if v.end ≤ start ∨ v.start ≥ stop then [v]
  else if v.start ≥ start ∧ v.end ≤ stop then [{ v with flags := vmaProtectFlags v newFlags }]
  else if start ≤ v.start ∧ stop < v.end then
    [⟨v.start, stop, vmaProtectFlags v newFlags⟩, ⟨stop, v.end, v.flags⟩]
  else if start > v.start ∧ stop ≥ v.end then
    [{ v with «end» := start }, ⟨start, v.end, vmaProtectFlags v newFlags⟩]
  else if start > v.start ∧ stop < v.end then
    [{ v with «end» := start }, ⟨start, stop, vmaProtectFlags v newFlags⟩,
      ⟨stop, v.end, v.flags⟩]
  else [v]

/-- The flags of an address of an area when the flags of a range change. -/
def protectedFlags (start stop : Nat) (newFlags : Word) (addr : Nat) (flags : Word) : Word :=
  if start ≤ addr ∧ addr < stop then (flags &&& vmaCow) ||| newFlags else flags

theorem protectPieces_parts (hlt : start < stop) :
    Parts Vma.start Vma.end (protectPieces start stop newFlags) v := by
  constructor
  · intro p hp
    unfold protectPieces at hp
    split_ifs at hp <;> simp only [List.mem_cons, List.not_mem_nil, or_false] at hp
    · simp [hp]
    · simp [hp]
    · obtain rfl | rfl := hp
      · dsimp only
        omega
      · dsimp only
        omega
    · obtain rfl | rfl := hp
      · dsimp only
        omega
      · dsimp only
        omega
    · obtain rfl | rfl | rfl := hp
      · dsimp only
        omega
      · dsimp only
        omega
      · dsimp only
        omega
    · simp [hp]
  · unfold protectPieces Separated
    split_ifs <;> simp
    omega

/-- The addresses of the range have the new flags, and every other one has the old ones. -/
theorem flagsAt_protectPieces (haddr : v.start ≤ addr ∧ addr < v.end) :
    flagsAt (protectPieces start stop newFlags v) addr =
      some (protectedFlags start stop newFlags addr v.flags) := by
  unfold protectPieces protectedFlags
  simp only [apply_ite (flagsAt · addr), flagsAt_cons, flagsAt_nil, vmaProtectFlags]
  split_ifs <;> first | rfl | omega

end Pieces

/-- Several `kmalloc` calls, up to the first that fails. -/
def Kmalloc.nextN : Nat → Kmalloc → Bool × Kmalloc
  | 0, k => (true, k)
  | n + 1, k =>
    match k.next with
    | (true, k) => nextN n k
    | (false, k) => (false, k)

theorem Kmalloc.nextN_one (k : Kmalloc) : k.nextN 1 = k.next := by
  rcases hk : k.next with ⟨ok, k'⟩
  cases ok <;> simp [nextN, hk]

theorem Kmalloc.nextN_add (m n : Nat) (k : Kmalloc) : k.nextN (m + n) =
    match k.nextN m with
    | (true, k) => k.nextN n
    | (false, k) => (false, k) := by
  induction m generalizing k with
  | zero => simp [nextN]
  | succ m ih =>
    rw [Nat.add_right_comm]
    rcases hk : k.next with ⟨ok, k'⟩
    cases ok
    · simp [nextN, hk]
    · simpa [nextN, hk] using ih k'

/-- A walk over the areas that replaces each one by parts of it, for which it takes new nodes, and
stops where there is no memory. -/
structure Walks (walk : List Vma → Kmalloc → List Vma × Int × Kmalloc) (parts : Vma → List Vma)
    (needed : Vma → Nat) : Prop where
  nil : ∀ k, walk [] k = ([], 0, k)
  cons : ∀ curr rest k, walk (curr :: rest) k =
    match k.nextN (needed curr) with
    | (true, k) => (parts curr ++ (walk rest k).1, (walk rest k).2)
    | (false, k) => (curr :: rest, -eNoMem, k)

/-- The new nodes that a walk takes on its way through areas. -/
def nodesNeeded (needed : Vma → Nat) (vmas : List Vma) : Nat := (vmas.map needed).sum

/-- The walk finds no memory for the parts of `v`. -/
structure StopsAt (needed : Vma → Nat) (vmas : List Vma) (k : Kmalloc) (front : List Vma)
    (v : Vma) (back : List Vma) : Prop where
  split : vmas = front ++ v :: back
  before : (k.nextN (nodesNeeded needed front)).1 = true
  stops : (k.nextN (nodesNeeded needed front + needed v)).1 = false

namespace Walks

variable {walk : List Vma → Kmalloc → List Vma × Int × Kmalloc} {parts : Vma → List Vma}
  {needed : Vma → Nat}

/-- A walk ends with the parts of all areas, or stops in one area and leaves the rest. -/
theorem cases (h : Walks walk parts needed) (vmas : List Vma) (k : Kmalloc) :
    ((walk vmas k).2.1 = 0 ∧ (walk vmas k).1 = vmas.flatMap parts) ∨
    ((walk vmas k).2.1 = -eNoMem ∧ ∃ front v back, StopsAt needed vmas k front v back ∧
      (walk vmas k).1 = front.flatMap parts ++ v :: back) := by
  induction vmas generalizing k with
  | nil =>
    rw [h.nil]
    exact Or.inl ⟨rfl, rfl⟩
  | cons curr rest ih =>
    rw [h.cons]
    rcases hk : k.nextN (needed curr) with ⟨ok, k'⟩
    cases ok with
    | false =>
      refine Or.inr ⟨rfl, [], curr, rest, ⟨rfl, rfl, ?_⟩, rfl⟩
      simp [nodesNeeded, hk]
    | true =>
      dsimp only
      obtain ⟨hret, hlist⟩ | ⟨hret, front, v, back, ⟨hsplit, hbefore, hstops⟩, hlist⟩ := ih k'
      · exact Or.inl ⟨hret, by rw [hlist, List.flatMap_cons]⟩
      · refine Or.inr ⟨hret, curr :: front, v, back, ⟨by rw [hsplit]; rfl, ?_, ?_⟩, ?_⟩
        · simp [nodesNeeded, Kmalloc.nextN_add, hk] at hbefore ⊢
          exact hbefore
        · simp only [nodesNeeded, List.map_cons, List.sum_cons, Nat.add_assoc] at hstops ⊢
          rw [Kmalloc.nextN_add, hk]
          exact hstops
        · rw [hlist, List.flatMap_cons, List.append_assoc]

/-- A walk that stops, stops in one place. -/
theorem stopsAt (h : Walks walk parts needed) {vmas front back : List Vma} {v : Vma}
    {k : Kmalloc} (hstop : StopsAt needed vmas k front v back) :
    (walk vmas k).2.1 = -eNoMem ∧ (walk vmas k).1 = front.flatMap parts ++ v :: back := by
  obtain ⟨rfl, hbefore, hstops⟩ := hstop
  induction front generalizing k with
  | nil =>
    rw [List.nil_append, h.cons]
    rcases hk : k.nextN (needed v) with ⟨ok, k'⟩
    simp only [nodesNeeded, List.map_nil, List.sum_nil, Nat.zero_add, hk] at hstops
    subst hstops
    exact ⟨rfl, rfl⟩
  | cons curr front ih =>
    rw [List.cons_append, h.cons]
    simp only [nodesNeeded, List.map_cons, List.sum_cons, Nat.add_assoc] at hbefore hstops
    rcases hk : k.nextN (needed curr) with ⟨ok, k'⟩
    rw [Kmalloc.nextN_add, hk] at hbefore hstops
    cases ok with
    | false => cases hbefore
    | true =>
      obtain ⟨hret, hlist⟩ := ih hbefore hstops
      refine ⟨hret, ?_⟩
      dsimp only
      rw [hlist, List.flatMap_cons, List.append_assoc]

/-- What a walk leaves are areas and parts of areas. -/
theorem of_mem (h : Walks walk parts needed) {vmas : List Vma} {k : Kmalloc} {p : Vma}
    (hp : p ∈ (walk vmas k).1) : ∃ v ∈ vmas, p = v ∨ p ∈ parts v := by
  obtain ⟨-, hlist⟩ | ⟨-, front, v, back, hstop, hlist⟩ := h.cases vmas k
  · rw [hlist, List.mem_flatMap] at hp
    obtain ⟨v, hv, hp⟩ := hp
    exact ⟨v, hv, Or.inr hp⟩
  · rw [hlist, List.mem_append, List.mem_flatMap] at hp
    rw [hstop.split]
    obtain ⟨v, hv, hp⟩ | hp := hp
    · exact ⟨v, List.mem_append_left _ hv, Or.inr hp⟩
    · exact ⟨p, List.mem_append_right _ hp, Or.inl rfl⟩

/-- The parts of an area are left, or, without memory, the area. -/
theorem leaves (h : Walks walk parts needed) {vmas : List Vma} {v : Vma} (hv : v ∈ vmas)
    (k : Kmalloc) : (∀ p ∈ parts v, p ∈ (walk vmas k).1) ∨
      v ∈ (walk vmas k).1 ∧ (walk vmas k).2.1 = -eNoMem := by
  obtain ⟨-, hlist⟩ | ⟨hret, front, u, back, hstop, hlist⟩ := h.cases vmas k
  · exact Or.inl fun p hp => hlist ▸ List.mem_flatMap.mpr ⟨v, hv, hp⟩
  · rw [hstop.split, List.mem_append] at hv
    rw [hlist]
    cases hv with
    | inl hfront =>
      exact Or.inl fun p hp => List.mem_append_left _ (List.mem_flatMap.mpr ⟨v, hfront, hp⟩)
    | inr hback => exact Or.inr ⟨List.mem_append_right _ hback, hret⟩

end Walks

/-- The nodes that unmapping takes for an area. -/
def unmapNeeded (start stop : Nat) (v : Vma) : Nat :=
  if v.start < start ∧ stop < v.end then 1 else 0

/-- The nodes that protecting takes for an area: one for each end of the range inside it. -/
def protectNeeded (start stop : Nat) (v : Vma) : Nat :=
  if v.end ≤ start ∨ v.start ≥ stop then 0
  else (if v.start < start then 1 else 0) + if stop < v.end then 1 else 0

/-- A range may end below its start. -/
theorem unmap_walks_any (start stop : Nat) :
    Walks (vmaUnmapRange start stop) (unmapPieces start stop)
      (fun v => if v.end ≤ start ∨ v.start ≥ stop then 0 else unmapNeeded start stop v) where
  nil _ := rfl
  cons curr rest k := by
    rw [vmaUnmapRange]
    unfold unmapPieces unmapNeeded
    split_ifs with hout hin hhead htail hmid <;> try omega
    · rfl
    · rfl
    · rfl
    · rfl
    · rw [Kmalloc.nextN_one]
      rcases k.next with ⟨ok, k'⟩
      cases ok <;> rfl

theorem protect_walks (start stop : Nat) (newFlags : Word) :
    Walks (vmaProtectRange start stop newFlags) (protectPieces start stop newFlags)
      (protectNeeded start stop) where
  nil _ := rfl
  cons curr rest k := by
    rw [vmaProtectRange]
    unfold protectPieces protectNeeded
    split_ifs with hout hin hhead htail hmid <;> try omega
    · rfl
    · rfl
    · rw [Nat.zero_add, Kmalloc.nextN_one]
      rcases k.next with ⟨ok, k'⟩
      cases ok <;> rfl
    · rw [Nat.add_zero, Kmalloc.nextN_one]
      rcases k.next with ⟨ok, k'⟩
      cases ok <;> rfl
    · rw [Kmalloc.nextN_add, Kmalloc.nextN_one]
      rcases k.next with ⟨ok, k'⟩
      cases ok
      · rfl
      · dsimp only
        rw [Kmalloc.nextN_one]
        rcases k'.next with ⟨ok, k''⟩
        cases ok <;> rfl

section Pointwise

variable {start stop : Nat} {newFlags : Word} {vmas : List Vma}

/-- The parts that protecting leaves cover what was covered. -/
theorem flagsAt_protected (h : VmasSeparated vmas) (hlt : start < stop) (addr : Nat) :
    flagsAt (vmas.flatMap (protectPieces start stop newFlags)) addr =
      (flagsAt vmas addr).map (protectedFlags start stop newFlags addr) := by
  rw [flagsAt_flatMap h fun v _ => protectPieces_parts hlt, flagsAt]
  cases hitem : itemAt Vma.start Vma.end addr vmas with
  | none => rfl
  | some v =>
    rw [Option.bind_some, flagsAt_protectPieces (itemAt_mem hitem).2]
    rfl

/-- No part of an area that is not empty is empty. -/
theorem protectPieces_nonempty {v p : Vma} (hlt : start < stop) (hv : v.start < v.end)
    (hp : p ∈ protectPieces start stop newFlags v) : p.start < p.end := by
  unfold protectPieces at hp
  split_ifs at hp <;> simp only [List.mem_cons, List.not_mem_nil, or_false] at hp
  · rw [hp]
    exact hv
  · rw [hp]
    exact hv
  · obtain rfl | rfl := hp <;> dsimp only <;> omega
  · obtain rfl | rfl := hp <;> dsimp only <;> omega
  · obtain rfl | rfl | rfl := hp <;> dsimp only <;> omega
  · rw [hp]
    exact hv

/-- Protecting a range updates the flags of its addresses and nothing else. -/
theorem vma_protect_pointwise (vmas : List Vma) (start stop : Nat) (newFlags : Word) (k : Kmalloc)
    (hsep : VmasSeparated vmas) (hnonempty : ∀ v ∈ vmas, v.start < v.end) (hlt : start < stop)
    (hret : (vmaProtectRange start stop newFlags vmas k).2.1 = 0) :
    (∀ addr, flagsAt (vmaProtectRange start stop newFlags vmas k).1 addr =
      (flagsAt vmas addr).map fun flags =>
        if start ≤ addr ∧ addr < stop then (flags &&& vmaCow) ||| newFlags else flags) ∧
    VmasSeparated (vmaProtectRange start stop newFlags vmas k).1 ∧
    ∀ v ∈ (vmaProtectRange start stop newFlags vmas k).1, v.start < v.end := by
  obtain ⟨-, hlist⟩ | ⟨hfail, -⟩ := (protect_walks start stop newFlags).cases vmas k
  · rw [hlist]
    refine ⟨fun addr => flagsAt_protected hsep hlt addr,
      hsep.flatMap fun v _ => protectPieces_parts hlt, fun p hp => ?_⟩
    obtain ⟨v, hv, hp⟩ := List.mem_flatMap.mp hp
    exact protectPieces_nonempty hlt (hnonempty v hv) hp
  · rw [hret] at hfail
    exact absurd hfail (by decide)

/-- A range over the ends of two areas. -/
theorem vma_protect_pointwise_sample :
    flagsAt (vmaProtectRange 0x2000 0x6000 vmaRead
      [⟨0x1000, 0x4000, vmaWrite⟩, ⟨0x5000, 0x8000, vmaWrite ||| vmaCow⟩] []).1 0x5000 =
        some (vmaRead ||| vmaCow) :=
  (vma_protect_pointwise _ 0x2000 0x6000 vmaRead [] (by simp [Separated]) (by decide) (by decide)
    (by decide)).1 0x5000

end Pointwise

end EnclaveOS
