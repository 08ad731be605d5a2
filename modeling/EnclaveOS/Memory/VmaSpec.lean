import EnclaveOS.Foundation.IntervalList
import EnclaveOS.Memory.VmaMap

/-!
# VmaSpec - the areas of a process stay in order

The invariant of an area list and what each function of `vma.c` needs to
keep it.  Unmapping and protecting cut areas into pieces; adding inserts one into
a gap; cloning rounds every end up to a page.
-/

namespace EnclaveOS

open IntervalList

/-- One well-formed area.  Only an area at the start of the heap may be empty,
and only below the end of the heap window does an area end inside a page. -/
structure VmaOk (v : Vma) : Prop where
  le : v.start ≤ v.end
  below : v.end ≤ kernelSpaceStart
  aligned : v.start % 4096 = 0
  empty : v.start = v.end → v.start = userHeapStart
  endAligned : v.end % 4096 = 0 ∨ v.end ≤ userHeapStart + userHeapMaxSize

/-- The areas are well formed, in order of their starts, and disjoint. -/
structure VmaInv (vmas : List Vma) : Prop where
  ordered : Ordered Vma.start Vma.end vmas
  ok : ∀ v ∈ vmas, VmaOk v

theorem VmaInv.nil : VmaInv [] :=
  ⟨List.Pairwise.nil, by simp⟩

/-- What cuts areas into well-formed pieces keeps the invariant. -/
theorem VmaInv.cut {vmas vmas' : List Vma} (h : VmaInv vmas)
    (hcut : Cut Vma.start Vma.end VmaOk vmas' vmas) : VmaInv vmas' := by
  refine ⟨hcut.ordered h.ordered, fun v hv => ?_⟩
  obtain ⟨a, -, -, hok⟩ := hcut.mem hv
  exact hok

theorem VmaInv.sorted {vmas : List Vma} (h : VmaInv vmas) :
    vmas.Pairwise fun a b => a.start ≤ b.start :=
  h.ordered.imp fun hab => hab.1.le

/-- The part of an area below a page boundary inside it. -/
theorem VmaOk.left {v : Vma} (h : VmaOk v) (cut : Nat) (flags : Word) (hlo : v.start < cut)
    (hhi : cut ≤ v.end) (hcut : cut % 4096 = 0) :
    PieceOf Vma.start Vma.end (⟨v.start, cut, flags⟩ : Vma) v ∧ VmaOk ⟨v.start, cut, flags⟩ :=
  ⟨⟨le_rfl, hhi, Or.inl rfl⟩,
    ⟨hlo.le, hhi.trans h.below, h.aligned, fun heq => absurd heq hlo.ne, Or.inl hcut⟩⟩

/-- The part of an area above a page boundary inside it. -/
theorem VmaOk.right {v : Vma} (h : VmaOk v) (cut : Nat) (flags : Word) (hlo : v.start ≤ cut)
    (hhi : cut < v.end) (hcut : cut % 4096 = 0) :
    PieceOf Vma.start Vma.end (⟨cut, v.end, flags⟩ : Vma) v ∧ VmaOk ⟨cut, v.end, flags⟩ :=
  ⟨⟨hlo, le_rfl, Or.inr hhi⟩,
    ⟨hhi.le, h.below, hcut, fun heq => absurd heq hhi.ne, h.endAligned⟩⟩

/-- The part of an area between two page boundaries inside it. -/
theorem VmaOk.middle {v : Vma} (h : VmaOk v) {a b : Nat} (flags : Word) (hlo : v.start ≤ a)
    (hab : a < b) (hhi : b ≤ v.end) (ha : a % 4096 = 0) (hb : b % 4096 = 0) :
    PieceOf Vma.start Vma.end (⟨a, b, flags⟩ : Vma) v ∧ VmaOk ⟨a, b, flags⟩ :=
  ⟨⟨hlo, hhi, Or.inr (hab.trans_le hhi)⟩,
    ⟨hab.le, hhi.trans h.below, ha, fun heq => absurd heq hab.ne, Or.inl hb⟩⟩

theorem VmaOk.setFlags {v : Vma} (h : VmaOk v) (flags : Word) :
    PieceOf Vma.start Vma.end { v with flags := flags } v ∧ VmaOk { v with flags := flags } :=
  ⟨⟨le_rfl, le_rfl, Or.inl rfl⟩, ⟨h.le, h.below, h.aligned, h.empty, h.endAligned⟩⟩

/-- A walk that replaces each area by parts of it cuts areas. -/
theorem Walks.cut {walk : List Vma → Kmalloc → List Vma × Int × Kmalloc} {parts : Vma → List Vma}
    {needed : Vma → Nat} (h : Walks walk parts needed) {vmas : List Vma} (k : Kmalloc)
    (hok : ∀ v ∈ vmas, VmaOk v) (hparts : ∀ v ∈ vmas, ∀ {l l'},
      Cut Vma.start Vma.end VmaOk l l' → Cut Vma.start Vma.end VmaOk (parts v ++ l) (v :: l')) :
    Cut Vma.start Vma.end VmaOk (walk vmas k).1 vmas := by
  induction vmas generalizing k with
  | nil =>
    rw [h.nil]
    exact .nil
  | cons curr rest ih =>
    rw [h.cons]
    rcases k.nextN (needed curr) with ⟨ok, k'⟩
    cases ok with
    | false => exact .refl hok
    | true =>
      exact hparts curr List.mem_cons_self (ih k' (fun v hv => hok v (List.mem_cons_of_mem _ hv))
        fun v hv => hparts v (List.mem_cons_of_mem _ hv))

/-- `vma_unmap_range` cuts areas, unless the range ends below its start
inside one area. -/
theorem vmaUnmapRange_cut {start stop : Nat} (hstart : start % 4096 = 0) (hstop : stop % 4096 = 0)
    (vmas : List Vma) (k : Kmalloc) (hok : ∀ v ∈ vmas, VmaOk v)
    (hwrap : ∀ v ∈ vmas, ¬ (v.start < stop ∧ stop < start ∧ start < v.end)) :
    Cut Vma.start Vma.end VmaOk (vmaUnmapRange start stop vmas k).1 vmas := by
  refine (unmap_walks_any start stop).cut k hok fun v hv l l' hrest => ?_
  have hv' := hok v hv
  have hno := hwrap v hv
  unfold unmapPieces
  split_ifs with hout hin hhead htail hmid
  · exact .keep (PieceOf.refl _) hv' hrest
  · exact .drop hrest
  · obtain ⟨hpiece, hpok⟩ := hv'.right stop v.flags (by omega) (by omega) hstop
    exact .keep hpiece hpok hrest
  · obtain ⟨hpiece, hpok⟩ := hv'.left start v.flags (by omega) (by omega) hstart
    exact .keep hpiece hpok hrest
  · -- the area around the range falls apart into two
    refine .split (p := ⟨v.start, start, v.flags⟩) ?_
      (hv'.left _ _ (by omega) (by omega) hstart)
      (hv'.right _ _ (by omega) (by omega) hstop) hrest
    constructor
    · change v.start < stop
      omega
    · change start ≤ stop
      omega
  · exact .keep (PieceOf.refl _) hv' hrest

/-- `vma_protect_range` cuts areas, unless the range ends at or below its
start inside one area. -/
theorem vmaProtectRange_cut {start stop : Nat} (hstart : start % 4096 = 0)
    (hstop : stop % 4096 = 0) (newFlags : Word) (vmas : List Vma) (k : Kmalloc)
    (hok : ∀ v ∈ vmas, VmaOk v)
    (hwrap : ∀ v ∈ vmas, ¬ (v.start < stop ∧ stop ≤ start ∧ start < v.end)) :
    Cut Vma.start Vma.end VmaOk (vmaProtectRange start stop newFlags vmas k).1 vmas := by
  refine (protect_walks start stop newFlags).cut k hok fun v hv l l' hrest => ?_
  have hv' := hok v hv
  have hno := hwrap v hv
  unfold protectPieces
  split_ifs with hout hin hhead htail hmid
  · exact .keep (PieceOf.refl _) hv' hrest
  · obtain ⟨hpiece, hpok⟩ := hv'.setFlags (vmaProtectFlags v newFlags)
    exact .keep hpiece hpok hrest
  · refine .split ?_ (hv'.left _ _ (by omega) (by omega) hstop)
      (hv'.right _ _ (by omega) (by omega) hstop) hrest
    exact ⟨by change v.start < stop; omega, le_rfl⟩
  · refine .split (p := ⟨v.start, start, v.flags⟩) ?_
      (hv'.left _ _ (by omega) (by omega) hstart)
      (hv'.right _ _ (by omega) (by omega) hstart) hrest
    exact ⟨by change v.start < start; omega, le_rfl⟩
  · refine .split₃ (p := ⟨v.start, start, v.flags⟩) ?_ ?_
      (hv'.left _ _ (by omega) (by omega) hstart)
      (hv'.middle _ (by omega) (by omega) (by omega) hstart hstop)
      (hv'.right _ _ (by omega) (by omega) hstop) hrest
    · exact ⟨by change v.start < start; omega, le_rfl⟩
    · exact ⟨by change start < stop; omega, le_rfl⟩
  · exact .keep (PieceOf.refl _) hv' hrest

namespace VmaInv

variable {vmas : List Vma}

theorem unmapRange (h : VmaInv vmas) {start stop : Nat} (hstart : start % 4096 = 0)
    (hstop : stop % 4096 = 0) (k : Kmalloc)
    (hwrap : ∀ v ∈ vmas, ¬ (v.start < stop ∧ stop < start ∧ start < v.end)) :
    VmaInv (vmaUnmapRange start stop vmas k).1 :=
  h.cut (vmaUnmapRange_cut hstart hstop vmas k h.ok hwrap)

theorem protectRange (h : VmaInv vmas) {start stop : Nat} (hstart : start % 4096 = 0)
    (hstop : stop % 4096 = 0) (newFlags : Word) (k : Kmalloc)
    (hwrap : ∀ v ∈ vmas, ¬ (v.start < stop ∧ stop ≤ start ∧ start < v.end)) :
    VmaInv (vmaProtectRange start stop newFlags vmas k).1 :=
  h.cut (vmaProtectRange_cut hstart hstop newFlags vmas k h.ok hwrap)

end VmaInv

/-- The insertion walk splits the list at the start of the new area. -/
theorem vmaInsertAfter_eq (x : Vma) (vmas : List Vma)
    (hsorted : vmas.Pairwise fun a b => a.start ≤ b.start) :
    ∃ l r, vmas = l ++ r ∧ vmaInsertAfter x vmas = l ++ x :: r ∧
      (∀ a ∈ l, a.start < x.start) ∧ ∀ b ∈ r, x.start ≤ b.start := by
  induction vmas with
  | nil => exact ⟨[], [], rfl, rfl, by simp, by simp⟩
  | cons next rest ih =>
    obtain ⟨hnext, hrest⟩ := List.pairwise_cons.mp hsorted
    rw [vmaInsertAfter]
    split_ifs with hlt
    · obtain ⟨l, r, hsplit, hres, hl, hr⟩ := ih hrest
      refine ⟨next :: l, r, by rw [hsplit]; rfl, by rw [hres]; rfl, ?_, hr⟩
      intro a ha
      rcases List.mem_cons.mp ha with rfl | ha
      · exact hlt
      · exact hl a ha
    · refine ⟨[], next :: rest, rfl, rfl, by simp, ?_⟩
      intro b hb
      rcases List.mem_cons.mp hb with rfl | hb
      · omega
      · exact (Nat.not_lt.mp hlt).trans (hnext b hb)

/-- `vma_add` puts an area whose start is new at its place in the order. -/
theorem vmaInsert_eq (x : Vma) (vmas : List Vma)
    (hsorted : vmas.Pairwise fun a b => a.start ≤ b.start) (hne : ∀ v ∈ vmas, v.start ≠ x.start) :
    ∃ l r, vmas = l ++ r ∧ vmaInsert x vmas = l ++ x :: r ∧
      (∀ a ∈ l, a.start < x.start) ∧ ∀ b ∈ r, x.start ≤ b.start := by
  cases vmas with
  | nil => exact ⟨[], [], rfl, rfl, by simp, by simp⟩
  | cons head rest =>
    obtain ⟨hhead, hrest⟩ := List.pairwise_cons.mp hsorted
    rw [vmaInsert]
    split_ifs with hgt
    · refine ⟨[], head :: rest, rfl, rfl, by simp, ?_⟩
      intro b hb
      rcases List.mem_cons.mp hb with rfl | hb
      · exact hgt.le
      · exact hgt.le.trans (hhead b hb)
    · obtain ⟨l, r, hsplit, hres, hl, hr⟩ := vmaInsertAfter_eq x rest hrest
      refine ⟨head :: l, r, by rw [hsplit]; rfl, by rw [hres]; rfl, ?_, hr⟩
      intro a ha
      rcases List.mem_cons.mp ha with rfl | ha
      · exact lt_of_le_of_ne (Nat.not_lt.mp hgt) (hne a List.mem_cons_self)
      · exact hl a ha

namespace VmaInv

variable {vmas : List Vma}

/-- An area that lies apart from all others is inserted in order. -/
theorem insert (h : VmaInv vmas) {x : Vma} (hx : VmaOk x)
    (hapart : ∀ v ∈ vmas, IntervalList.Precedes Vma.start Vma.end v x ∨
      IntervalList.Precedes Vma.start Vma.end x v) :
    VmaInv (vmaInsert x vmas) := by
  have hne : ∀ v ∈ vmas, v.start ≠ x.start := by
    intro v hv
    rcases hapart v hv with hlt | hlt
    · exact hlt.1.ne
    · exact hlt.1.ne'
  obtain ⟨l, r, rfl, hres, hl, hr⟩ := vmaInsert_eq x vmas h.sorted hne
  rw [hres]
  refine ⟨ordered_insert h.ordered ?_ ?_, ?_⟩
  · intro a ha
    rcases hapart a (List.mem_append_left _ ha) with hax | hxa
    · exact hax
    · exact absurd hxa.1 (hl a ha).asymm
  · intro b hb
    rcases hapart b (List.mem_append_right _ hb) with hbx | hxb
    · exact absurd hbx.1 (hr b hb).not_gt
    · exact hxb
  · intro v hv
    rcases List.mem_append.mp hv with hv | hv
    · exact h.ok v (List.mem_append_left _ hv)
    · rcases List.mem_cons.mp hv with rfl | hv
      · exact hx
      · exact h.ok v (List.mem_append_right _ hv)

/-- `vma_add` keeps the invariant when the page-rounded area lies apart from
all others. -/
theorem add (h : VmaInv vmas) {start stop : Nat} (flags : Word) (k : Kmalloc)
    (hapart : ∀ v ∈ vmas,
      IntervalList.Precedes Vma.start Vma.end v ⟨pageDown start, pageUp stop, flags⟩ ∨
        IntervalList.Precedes Vma.start Vma.end ⟨pageDown start, pageUp stop, flags⟩ v)
    (hle : pageDown start ≤ pageUp stop)
    (hempty : pageDown start = pageUp stop → pageDown start = userHeapStart) :
    VmaInv (vmaAdd vmas start stop flags k).1 := by
  rcases vmaAdd_cases vmas start stop flags k with ⟨hsame, -⟩ | ⟨-, hstop, hres, -⟩
  · rw [hsame]
    exact h
  · rw [hres]
    refine h.insert ⟨hle, ?_, pageDown_mod _, hempty, Or.inl (pageUp_mod _)⟩ hapart
    exact pageUp_le hstop (by decide) kernelSpaceStart_le_lastPage

end VmaInv

/-- The copy of an area in the child: its end is rounded up to a page. -/
def clonedVma (v : Vma) : Vma :=
  ⟨v.start, pageUp v.end, v.flags⟩

@[simp]
theorem clonedVma_start (v : Vma) : (clonedVma v).start = v.start := by
  simp only [clonedVma]

@[simp]
theorem clonedVma_end (v : Vma) : (clonedVma v).end = pageUp v.end := by
  simp only [clonedVma]

theorem VmaOk.pageUp_end {v : Vma} (h : VmaOk v) : v.end ≤ pageUp v.end :=
  le_pageUp (h.below.trans kernelSpaceStart_le_lastPage)

theorem VmaOk.cloned {v : Vma} (h : VmaOk v) : VmaOk (clonedVma v) := by
  refine ⟨?_, ?_, ?_, ?_, Or.inl ?_⟩ <;> simp only [clonedVma_start, clonedVma_end]
  · exact h.le.trans h.pageUp_end
  · exact pageUp_le h.below (by decide) kernelSpaceStart_le_lastPage
  · exact h.aligned
  · exact fun heq => h.empty (le_antisymm h.le (h.pageUp_end.trans heq.symm.le))
  · exact pageUp_mod _

/-- Rounding an end up never reaches over the next area. -/
theorem precedes_cloned {a b : Vma} (hb : VmaOk b)
    (hab : IntervalList.Precedes Vma.start Vma.end a b) :
    IntervalList.Precedes Vma.start Vma.end (clonedVma a) (clonedVma b) := by
  refine ⟨?_, ?_⟩ <;> simp only [clonedVma_start, clonedVma_end]
  · exact hab.1
  · exact pageUp_le hab.2 hb.aligned ((hb.le.trans hb.below).trans kernelSpaceStart_le_lastPage)

/-- Appending behind the last area. -/
theorem vmaInsert_append {vmas : List Vma} {x : Vma} (h : ∀ v ∈ vmas, v.start < x.start) :
    vmaInsert x vmas = vmas ++ [x] := by
  have hafter : ∀ l : List Vma, (∀ v ∈ l, v.start < x.start) →
      vmaInsertAfter x l = l ++ [x] := by
    intro l hl
    induction l with
    | nil => rfl
    | cons next rest ih =>
      rw [vmaInsertAfter, if_pos (hl next List.mem_cons_self),
        ih fun v hv => hl v (List.mem_cons_of_mem _ hv)]
      rfl
  cases vmas with
  | nil => rfl
  | cons head rest =>
    rw [vmaInsert, if_neg (h head List.mem_cons_self).asymm,
      hafter rest fun v hv => h v (List.mem_cons_of_mem _ hv)]
    rfl

/-- The clone walk copies the areas in order, or gives up with an empty list. -/
theorem vmaCloneFrom_cases (child parent : List Vma) (h : VmaInv (child ++ parent))
    (k : Kmalloc) :
    (vmaCloneFrom (child.map clonedVma) parent k).1 = [] ∧
        (vmaCloneFrom (child.map clonedVma) parent k).2.1 < 0 ∨
      (vmaCloneFrom (child.map clonedVma) parent k).1 = (child ++ parent).map clonedVma ∧
        (vmaCloneFrom (child.map clonedVma) parent k).2.1 = 0 := by
  induction parent generalizing child k with
  | nil =>
    rw [vmaCloneFrom, List.append_nil]
    exact Or.inr ⟨rfl, rfl⟩
  | cons current rest ih =>
    have hcross := (List.pairwise_append.mp h.ordered).2.2
    have hok := h.ok current (by simp)
    rw [vmaCloneFrom]
    rcases hadd : vmaAdd (child.map clonedVma) current.start current.end current.flags k with
      ⟨child', ret, k'⟩
    have hcases := vmaAdd_cases (child.map clonedVma) current.start current.end current.flags k
    rw [hadd] at hcases
    rcases hcases with ⟨-, hret⟩ | ⟨-, -, hres, hret⟩
    · dsimp only at hret ⊢
      rw [if_pos hret]
      exact Or.inl ⟨rfl, show -eNoMem < 0 by decide⟩
    · dsimp only at hres hret ⊢
      rw [if_neg (by omega), hres]
      have hdown : pageDown current.start = current.start := pageDown_eq_self hok.aligned
      have hinsert : vmaInsert ⟨pageDown current.start, pageUp current.end, current.flags⟩
          (child.map clonedVma) = (child ++ [current]).map clonedVma := by
        rw [hdown, vmaInsert_append]
        · simp [clonedVma]
        · intro v hv
          obtain ⟨a, ha, rfl⟩ := List.mem_map.mp hv
          rw [clonedVma_start]
          exact (hcross a ha current List.mem_cons_self).1
      rw [hinsert]
      have hnext := ih (child ++ [current]) (by simpa using h) k'
      simpa using hnext

/-- `vma_clone` keeps the invariant. -/
theorem VmaInv.clone {vmas : List Vma} (h : VmaInv vmas) (k : Kmalloc) :
    VmaInv (vmaClone vmas k).1 := by
  rcases vmaCloneFrom_cases [] vmas (by simpa using h) k with
    ⟨hres, -⟩ | ⟨hres, -⟩
  · rw [vmaClone]
    rw [List.map_nil] at hres
    rw [hres]
    exact VmaInv.nil
  · rw [vmaClone]
    rw [List.map_nil] at hres
    rw [hres, List.nil_append]
    refine ⟨?_, ?_⟩
    · refine List.pairwise_map.mpr (h.ordered.imp_of_mem ?_)
      intro a b _ hb hab
      exact precedes_cloned (h.ok b hb) hab
    · intro v hv
      obtain ⟨a, ha, rfl⟩ := List.mem_map.mp hv
      exact (h.ok a ha).cloned

/-- The free-area walk, started behind the areas seen so far. -/
theorem vmaFindFreeAreaFrom_gap {vmas : List Vma} (h : VmaInv vmas) {size current addr : Nat}
    (hfit : size ≤ userMmapMaxSize) (hcurrent : userMmapStart ≤ current)
    (hbelow : current ≤ kernelSpaceStart) (haligned : current % 4096 = 0)
    (hseen : ∀ v ∈ vmas, v.end ≤ userMmapStart ∨ current ≤ v.end)
    (hfree : vmaFindFreeAreaFrom size current vmas = addr) (haddr : addr ≠ 0)
    (huser : addr < kernelSpaceStart) :
    current ≤ addr ∧ addr % 4096 = 0 ∧ addr + size ≤ kernelSpaceStart ∧
      ∀ v ∈ vmas, v.end ≤ addr ∨ addr + size ≤ v.start := by
  induction vmas generalizing current with
  | nil =>
    rw [vmaFindFreeAreaFrom] at hfree
    split_ifs at hfree with hend
    · subst hfree
      unfold wrap32 at hend
      unfold userMmapMaxSize userMmapStart kernelSpaceStart at *
      refine ⟨le_rfl, haligned, by omega, by simp⟩
    · exact absurd hfree.symm haddr
  | cons curr rest ih =>
    obtain ⟨hcurr, hrest⟩ := List.pairwise_cons.mp h.ordered
    have hok := h.ok curr List.mem_cons_self
    have htail : VmaInv rest := ⟨hrest, fun v hv => h.ok v (List.mem_cons_of_mem _ hv)⟩
    rw [vmaFindFreeAreaFrom] at hfree
    split_ifs at hfree with hlow hgap
    · obtain ⟨hle, hmod, hsum, hapart⟩ := ih htail hcurrent hbelow haligned
        (fun v hv => hseen v (List.mem_cons_of_mem _ hv)) hfree
      refine ⟨hle, hmod, hsum, fun v hv => ?_⟩
      rcases List.mem_cons.mp hv with rfl | hv
      · exact Or.inl (hlow.trans (hcurrent.trans hle))
      · exact hapart v hv
    · subst hfree
      refine ⟨le_rfl, haligned, ?_, fun v hv => ?_⟩
      · have := hok.le.trans hok.below
        omega
      · rcases List.mem_cons.mp hv with rfl | hv
        · exact Or.inr (by omega)
        · have := (hcurr v hv).1
          exact Or.inr (by omega)
    · -- the walk goes on behind this area
      have hmod : curr.end % 4096 = 0 := by
        rcases hok.endAligned with hmod | hheap
        · exact hmod
        · unfold userHeapStart userHeapMaxSize userMmapStart at *
          omega
      have hbehind : ∀ v ∈ rest, v.end ≤ userMmapStart ∨ curr.end ≤ v.end := fun v hv =>
        Or.inr ((hcurr v hv).2.trans (h.ok v (List.mem_cons_of_mem _ hv)).le)
      obtain ⟨hle, hmod', hsum, hapart⟩ := ih htail (by omega) hok.below hmod hbehind hfree
      refine ⟨?_, hmod', hsum, fun v hv => ?_⟩
      · rcases hseen curr List.mem_cons_self with hlow' | hge
        · exact absurd hlow' hlow
        · exact hge.trans hle
      · rcases List.mem_cons.mp hv with rfl | hv
        · exact Or.inl hle
        · exact hapart v hv

/-- `vma_find_free_area` answers with a gap of user space, if with a user
address at all. -/
theorem vmaFindFreeArea_gap {vmas : List Vma} (h : VmaInv vmas) {size : Nat}
    (hfit : size ≤ userMmapMaxSize) (hne : vmaFindFreeArea vmas size ≠ 0)
    (huser : vmaFindFreeArea vmas size < kernelSpaceStart) :
    userMmapStart ≤ vmaFindFreeArea vmas size ∧ vmaFindFreeArea vmas size % 4096 = 0 ∧
      vmaFindFreeArea vmas size + size ≤ kernelSpaceStart ∧
      ∀ v ∈ vmas, v.end ≤ vmaFindFreeArea vmas size ∨
        vmaFindFreeArea vmas size + size ≤ v.start :=
  vmaFindFreeAreaFrom_gap h hfit le_rfl (by decide) (by decide) (fun v _ => by omega) rfl hne huser

end EnclaveOS
