import EnclaveOS.Memory.VmaMap

/-!
# VmaNodes - the nodes of an area list

`vma_unmap_range` on the nodes themselves: their addresses, the nodes it takes from
`kmalloc` and those it gives to `kfree`.
-/

namespace EnclaveOS

open IntervalList

/-- `vma_node_t` at an address. -/
structure VmaNode where
  ptr : Nat
  area : Vma

/-- The areas of a list of nodes, and their addresses. -/
def areas (nodes : List VmaNode) : List Vma := nodes.map VmaNode.area

/-- The nodes after an edit, its result, and the nodes given to `kfree`. -/
structure NodeEdit where
  nodes : List VmaNode
  ret : Int
  kmallocs : Kmalloc
  freed : List Nat

/-- A node that stays in front of the rest of the walk. -/
def NodeEdit.keep (n : VmaNode) (r : NodeEdit) : NodeEdit := { r with nodes := n :: r.nodes }

section Unmap

variable (fresh : Nat → Nat) (start stop : Nat)

/-- Every node after an edit is a node that was not freed or a new one, and every node before it is
kept or freed. -/
structure FreesRemoved (fresh : Nat → Nat) (olds news freed : List Nat) : Prop where
  sublist : freed.Sublist olds
  ofNew : ∀ p ∈ news, (p ∈ olds ∧ p ∉ freed) ∨ ∃ i, p = fresh i
  ofOld : ∀ p ∈ olds, p ∈ news ∨ p ∈ freed

namespace FreesRemoved

variable {fresh : Nat → Nat} {olds news freed : List Nat} {p : Nat}

/-- A node that is kept. -/
theorem keep (h : FreesRemoved fresh olds news freed) (hp : p ∉ olds) :
    FreesRemoved fresh (p :: olds) (p :: news) freed where
  sublist := h.sublist.cons p
  ofNew q hq := by
    obtain rfl | hq := List.mem_cons.mp hq
    · exact Or.inl ⟨List.mem_cons_self, fun hfreed => hp (h.sublist.subset hfreed)⟩
    · exact (h.ofNew q hq).imp_left fun hq => ⟨List.mem_cons_of_mem p hq.1, hq.2⟩
  ofOld q hq := by
    obtain rfl | hq := List.mem_cons.mp hq
    · exact Or.inl List.mem_cons_self
    · exact (h.ofOld q hq).imp_left (List.mem_cons_of_mem p)

/-- A node that is freed. -/
theorem free (h : FreesRemoved fresh olds news freed) (hp : p ∉ olds) :
    FreesRemoved fresh (p :: olds) news (p :: freed) where
  sublist := h.sublist.cons_cons p
  ofNew q hq := by
    obtain ⟨hq, hnot⟩ | hfresh := h.ofNew q hq
    · refine Or.inl ⟨List.mem_cons_of_mem p hq, ?_⟩
      rw [List.mem_cons, not_or]
      exact ⟨fun heq => hp (heq ▸ hq), hnot⟩
    · exact Or.inr hfresh
  ofOld q hq := by
    obtain rfl | hq := List.mem_cons.mp hq
    · exact Or.inr List.mem_cons_self
    · exact (h.ofOld q hq).imp_right (List.mem_cons_of_mem p)

/-- A new node. -/
theorem add (h : FreesRemoved fresh olds news freed) (i : Nat) :
    FreesRemoved fresh olds (fresh i :: news) freed where
  sublist := h.sublist
  ofNew q hq := by
    obtain rfl | hq := List.mem_cons.mp hq
    · exact Or.inr ⟨i, rfl⟩
    · exact h.ofNew q hq
  ofOld q hq := (h.ofOld q hq).imp_left (List.mem_cons_of_mem _)

theorem refl (fresh : Nat → Nat) (olds : List Nat) : FreesRemoved fresh olds olds [] where
  sublist := List.nil_sublist olds
  ofNew _ hq := Or.inl ⟨hq, List.not_mem_nil⟩
  ofOld _ hq := Or.inl hq

end FreesRemoved

end Unmap

end EnclaveOS
