import EnclaveOS.Config

/-!
# Vma - the virtual memory areas of a process

The sorted list of `vma.c`, as a list of areas in link order.  Nodes come
from `kmalloc`, whose outcomes are supplied from outside: each call takes
the next one.  A node of the source is named by its position where a function
compares node pointers.
-/

namespace EnclaveOS

/-- `vma_node_t`, without the link. -/
structure Vma where
  start : Nat
  «end» : Nat
  flags : Word
deriving DecidableEq, Repr

def ePerm : Int := 1
def eNoExec : Int := 8
def eNoMem : Int := 12
def eInval : Int := 22
def eNoSys : Int := 38

/-- Outcomes of the coming `kmalloc` calls; once used up, calls succeed. -/
abbrev Kmalloc := List Bool

/-- One `kmalloc` call: whether it succeeded, and the outcomes left. -/
def Kmalloc.next : Kmalloc → Bool × Kmalloc
  | [] => (true, [])
  | ok :: rest => (ok, rest)

/-- `vma_intersects`, where `pos` is the position of the node at hand
and `ignored` the position of `ignore_vma`. -/
def vmaIntersectsFrom (start «end» : Nat) (ignored : Option Nat) : Nat → List Vma → Bool
  | _, [] => false
  | pos, curr :: rest =>
    if ignored = some pos then vmaIntersectsFrom start «end» ignored (pos + 1) rest
    else if start < curr.end ∧ «end» > curr.start then true
    else if curr.start ≥ «end» then false
    else vmaIntersectsFrom start «end» ignored (pos + 1) rest

/-- `vma_intersects`. -/
def vmaIntersects (vmas : List Vma) (start «end» : Nat) (ignored : Option Nat) : Bool :=
  vmaIntersectsFrom start «end» ignored 0 vmas

/-- The node loop of `vma_find`. -/
def vmaFindPage (pageAddr : Nat) : List Vma → Option Vma
  | [] => none
  | curr :: rest =>
    if pageAddr ≥ curr.start ∧ pageAddr < curr.end then some curr
    else if curr.start > pageAddr then none
    else vmaFindPage pageAddr rest

/-- `vma_find`. -/
def vmaFind (vmas : List Vma) (addr : Nat) : Option Vma :=
  vmaFindPage (pageDown addr) vmas

/-- The node loop of `vma_find_free_area`.  The subtraction is guarded and
the final sum is a `uint32_t`. -/
def vmaFindFreeAreaFrom (size : Nat) : Nat → List Vma → Nat
  | currentAddr, [] =>
    if wrap32 (currentAddr + size) ≤ userMmapStart + userMmapMaxSize then currentAddr else 0
  | currentAddr, curr :: rest =>
    if curr.end ≤ userMmapStart then vmaFindFreeAreaFrom size currentAddr rest
    else if curr.start > currentAddr ∧ curr.start - currentAddr ≥ size then currentAddr
    else vmaFindFreeAreaFrom size curr.end rest

/-- `vma_find_free_area`. -/
def vmaFindFreeArea (vmas : List Vma) (size : Nat) : Nat :=
  vmaFindFreeAreaFrom size userMmapStart vmas

/-- The insertion walk behind a node whose start is not above the new one. -/
def vmaInsertAfter (newNode : Vma) : List Vma → List Vma
  | [] => [newNode]
  | next :: rest =>
    if next.start < newNode.start then next :: vmaInsertAfter newNode rest
    else newNode :: next :: rest

/-- Insertion into the sorted list. -/
def vmaInsert (newNode : Vma) : List Vma → List Vma
  | [] => [newNode]
  | head :: rest =>
    if head.start > newNode.start then newNode :: head :: rest
    else head :: vmaInsertAfter newNode rest

/-- `vma_add`: the new list, the return code and the outcomes left. -/
def vmaAdd (vmas : List Vma) (start «end» : Nat) (flags : Word) (k : Kmalloc) :
    List Vma × Int × Kmalloc :=
  if start ≥ kernelSpaceStart ∨ «end» > kernelSpaceStart then (vmas, -eInval, k)
  else
    match k.next with
    | (false, k) => (vmas, -eNoMem, k)
    | (true, k) => (vmaInsert ⟨pageDown start, pageUp «end», flags⟩ vmas, 0, k)

/-- A node that stays in front of the rest of the walk. -/
def vmaKeep (v : Vma) (r : List Vma × Int × Kmalloc) : List Vma × Int × Kmalloc :=
  (v :: r.1, r.2)

/-- `vma_unmap_range`, with its five cases in the order of the source.  When
the split node cannot be allocated the walk stops, and the edits made so far
stay. -/
def vmaUnmapRange (start «end» : Nat) : List Vma → Kmalloc → List Vma × Int × Kmalloc
  | [], k => ([], 0, k)
  | curr :: rest, k =>
    if curr.end ≤ start ∨ curr.start ≥ «end» then
      vmaKeep curr (vmaUnmapRange start «end» rest k)
    else if curr.start ≥ start ∧ curr.end ≤ «end» then
      vmaUnmapRange start «end» rest k
    else if start ≤ curr.start ∧ «end» > curr.start ∧ «end» < curr.end then
      vmaKeep { curr with start := «end» } (vmaUnmapRange start «end» rest k)
    else if start > curr.start ∧ start < curr.end ∧ «end» ≥ curr.end then
      vmaKeep { curr with «end» := start } (vmaUnmapRange start «end» rest k)
    else if start > curr.start ∧ «end» < curr.end then
      match k.next with
      | (false, k) => (curr :: rest, -eNoMem, k)
      | (true, k) =>
        vmaKeep { curr with «end» := start }
          (vmaKeep ⟨«end», curr.end, curr.flags⟩ (vmaUnmapRange start «end» rest k))
    else vmaKeep curr (vmaUnmapRange start «end» rest k)

/-- Flags after a protection change; the copy-on-write marker stays. -/
def vmaProtectFlags (v : Vma) (newFlags : Word) : Word :=
  (v.flags &&& vmaCow) ||| newFlags

/-- `vma_protect_range`, with its five cases in the order of the source. -/
def vmaProtectRange (start «end» : Nat) (newFlags : Word) :
    List Vma → Kmalloc → List Vma × Int × Kmalloc
  | [], k => ([], 0, k)
  | curr :: rest, k =>
    if curr.end ≤ start ∨ curr.start ≥ «end» then
      vmaKeep curr (vmaProtectRange start «end» newFlags rest k)
    else if curr.start ≥ start ∧ curr.end ≤ «end» then
      vmaKeep { curr with flags := vmaProtectFlags curr newFlags }
        (vmaProtectRange start «end» newFlags rest k)
    else if start ≤ curr.start ∧ «end» < curr.end then
      match k.next with
      | (false, k) => (curr :: rest, -eNoMem, k)
      | (true, k) =>
        vmaKeep ⟨curr.start, «end», vmaProtectFlags curr newFlags⟩
          (vmaKeep ⟨«end», curr.end, curr.flags⟩
            (vmaProtectRange start «end» newFlags rest k))
    else if start > curr.start ∧ «end» ≥ curr.end then
      match k.next with
      | (false, k) => (curr :: rest, -eNoMem, k)
      | (true, k) =>
        vmaKeep { curr with «end» := start }
          (vmaKeep ⟨start, curr.end, vmaProtectFlags curr newFlags⟩
            (vmaProtectRange start «end» newFlags rest k))
    else if start > curr.start ∧ «end» < curr.end then
      match k.next with
      | (false, k) => (curr :: rest, -eNoMem, k)
      | (true, k) =>
        match k.next with
        | (false, k) => (curr :: rest, -eNoMem, k)
        | (true, k) =>
          vmaKeep { curr with «end» := start }
            (vmaKeep ⟨start, «end», vmaProtectFlags curr newFlags⟩
              (vmaKeep ⟨«end», curr.end, curr.flags⟩
                (vmaProtectRange start «end» newFlags rest k)))
    else vmaKeep curr (vmaProtectRange start «end» newFlags rest k)

/-- The node loop of `vma_clone`: a failed insertion drops the whole copy. -/
def vmaCloneFrom : List Vma → List Vma → Kmalloc → List Vma × Int × Kmalloc
  | child, [], k => (child, 0, k)
  | child, current :: rest, k =>
    match vmaAdd child current.start current.end current.flags k with
    | (child', ret, k) => if ret < 0 then ([], -eNoMem, k) else vmaCloneFrom child' rest k

/-- `vma_clone`: the list of the child. -/
def vmaClone (parent : List Vma) (k : Kmalloc) : List Vma × Int × Kmalloc :=
  vmaCloneFrom [] parent k

/-- `vma_add` rejects and changes nothing, or inserts the rounded area. -/
theorem vmaAdd_cases (vmas : List Vma) (start «end» : Nat) (flags : Word) (k : Kmalloc) :
    (vmaAdd vmas start «end» flags k).1 = vmas ∧ (vmaAdd vmas start «end» flags k).2.1 < 0 ∨
    start < kernelSpaceStart ∧ «end» ≤ kernelSpaceStart ∧
      (vmaAdd vmas start «end» flags k).1 =
        vmaInsert ⟨pageDown start, pageUp «end», flags⟩ vmas ∧
      (vmaAdd vmas start «end» flags k).2.1 = 0 := by
  unfold vmaAdd
  by_cases hbounds : start ≥ kernelSpaceStart ∨ «end» > kernelSpaceStart
  · rw [if_pos hbounds]
    exact Or.inl ⟨rfl, show -eInval < 0 by decide⟩
  · rw [if_neg hbounds]
    push Not at hbounds
    rcases k.next with ⟨ok, k'⟩
    cases ok
    · exact Or.inl ⟨rfl, show -eNoMem < 0 by decide⟩
    · exact Or.inr ⟨hbounds.1, hbounds.2, rfl, rfl⟩

theorem mem_vmaInsertAfter {vmas : List Vma} {x v : Vma} :
    v ∈ vmaInsertAfter x vmas ↔ v = x ∨ v ∈ vmas := by
  induction vmas with
  | nil => simp [vmaInsertAfter]
  | cons next rest ih =>
    rw [vmaInsertAfter]
    split_ifs
    · rw [List.mem_cons, ih, List.mem_cons]
      exact or_left_comm
    · exact List.mem_cons

/-- The areas after an insertion. -/
theorem mem_vmaInsert {vmas : List Vma} {x v : Vma} : v ∈ vmaInsert x vmas ↔ v = x ∨ v ∈ vmas := by
  cases vmas with
  | nil => simp [vmaInsert]
  | cons head rest =>
    rw [vmaInsert]
    split_ifs
    · exact List.mem_cons
    · rw [List.mem_cons, mem_vmaInsertAfter, List.mem_cons]
      exact or_left_comm

/-- The area that is found holds the page. -/
theorem vmaFindPage_mem {vmas : List Vma} {pageAddr : Nat} {v : Vma}
    (h : vmaFindPage pageAddr vmas = some v) :
    v ∈ vmas ∧ v.start ≤ pageAddr ∧ pageAddr < v.end := by
  induction vmas with
  | nil => cases h
  | cons curr rest ih =>
    rw [vmaFindPage] at h
    split_ifs at h with hin hpast
    · cases h
      exact ⟨List.mem_cons_self, hin⟩
    · exact ⟨List.mem_cons_of_mem _ (ih h).1, (ih h).2⟩

/-- Behind a positive answer there is an overlapping area. -/
theorem vmaIntersectsFrom_true {start stop : Nat} {ignored : Option Nat} {pos : Nat}
    {vmas : List Vma} (h : vmaIntersectsFrom start stop ignored pos vmas = true) :
    ∃ v ∈ vmas, start < v.end ∧ v.start < stop := by
  induction vmas generalizing pos with
  | nil => cases h
  | cons curr rest ih =>
    rw [vmaIntersectsFrom] at h
    split_ifs at h with hignored hoverlap hpast
    · obtain ⟨v, hv, hov⟩ := ih h
      exact ⟨v, List.mem_cons_of_mem _ hv, hov⟩
    · exact ⟨curr, List.mem_cons_self, hoverlap⟩
    · obtain ⟨v, hv, hov⟩ := ih h
      exact ⟨v, List.mem_cons_of_mem _ hv, hov⟩

/-- On a list sorted by start the early exit loses nothing: a negative answer
means that no area other than the ignored one overlaps. -/
theorem vmaIntersectsFrom_false {start stop : Nat} {ignored : Option Nat} {pos : Nat}
    {vmas : List Vma} (hsorted : vmas.Pairwise fun a b => a.start ≤ b.start)
    (h : vmaIntersectsFrom start stop ignored pos vmas = false)
    {i : Nat} {v : Vma} (hv : vmas[i]? = some v) (hignored : ignored ≠ some (pos + i)) :
    ¬ (start < v.end ∧ v.start < stop) := by
  induction vmas generalizing pos i with
  | nil => simp at hv
  | cons curr rest ih =>
    rw [List.pairwise_cons] at hsorted
    rw [vmaIntersectsFrom] at h
    split_ifs at h with hig hoverlap hpast
    · cases i with
      | zero => exact absurd hig hignored
      | succ i => exact ih hsorted.2 h hv (by rwa [Nat.add_right_comm, Nat.add_assoc])
    · cases i with
      | zero =>
        simp only [List.getElem?_cons_zero, Option.some.injEq] at hv
        exact hv ▸ hoverlap
      | succ i =>
        have hmem : v ∈ rest := List.mem_of_getElem? (by simpa using hv)
        have := hsorted.1 v hmem
        omega
    · cases i with
      | zero =>
        simp only [List.getElem?_cons_zero, Option.some.injEq] at hv
        exact hv ▸ hoverlap
      | succ i => exact ih hsorted.2 h hv (by rwa [Nat.add_right_comm, Nat.add_assoc])

/-- The plain overlap test on a sorted list. -/
theorem vmaIntersects_eq_false_iff {vmas : List Vma} {start stop : Nat}
    (hsorted : vmas.Pairwise fun a b => a.start ≤ b.start) :
    vmaIntersects vmas start stop none = false ↔
      ∀ v ∈ vmas, ¬ (start < v.end ∧ v.start < stop) := by
  constructor
  · intro h v hv
    obtain ⟨i, hi⟩ := List.getElem?_of_mem hv
    exact vmaIntersectsFrom_false hsorted h hi (by simp)
  · intro h
    by_contra htrue
    obtain ⟨v, hv, hov⟩ := vmaIntersectsFrom_true (Bool.eq_true_of_not_eq_false htrue)
    exact h v hv hov

end EnclaveOS
