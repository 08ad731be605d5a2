import EnclaveOS.Memory.KernelStackSpec
import EnclaveOS.Process.SystemBoot

/-!
# KernelStackRuns - kernel stacks over any sequence of allocations and frees

Stacks are allocated and freed in any order.  Between two calls the other users of the page
allocator take and give back frames of their own, so that an allocation may run out of memory at
any page.
-/

namespace EnclaveOS

open PageWord

/-- The machine, and the tops of the stacks that were given out and not freed. -/
structure KernelStacks where
  machine : Machine
  live : List Nat

inductive StackOp
  | alloc
  | free (stackTop : Nat)
  /-- The other users of the page allocator leave it in the state `pmm`. -/
  | other (pmm : Pmm)

def StackOp.step (s : KernelStacks) : StackOp → Option KernelStacks
  | .alloc =>
    match vmmAllocKernelStack s.machine with
    | .allocated m stackTop => some ⟨m, stackTop :: s.live⟩
    | .failed m => some ⟨m, s.live⟩
    | .halted => none
  | .free stackTop => some ⟨vmmFreeKernelStack s.machine stackTop, s.live.erase stackTop⟩
  | .other pmm => some ⟨s.machine.withPmm pmm, s.live⟩

/-- Only live stacks are freed, and the others leave page 0, the page limit and the frames of the
live stacks alone. -/
def StackOp.Offered (s : KernelStacks) : StackOp → Prop
  | .alloc => True
  | .free stackTop => stackTop ∈ s.live
  | .other pmm => pmm.maxPage = s.machine.pmm.maxPage ∧ pmm.bitmap 0 = true ∧
      ∀ slot, kernelStackTop slot ∈ s.live → ∀ q ∈ dataPages,
        pmm.bitmap (stackFrame s.machine slot q) = true

/-- Live stacks have slots and frames of their own. -/
structure StacksInv (s : KernelStacks) : Prop where
  tables : DirectTables s.machine
  limit : s.machine.pmm.maxPage ≤ pmmMaxPages
  zero : s.machine.pmm.bitmap 0 = true
  nodup : s.live.Nodup
  slot : ∀ stackTop ∈ s.live, ∃ slot < kernelStackSlots, stackTop = kernelStackTop slot ∧
    s.machine.kstackBitmap slot = true
  holds : ∀ slot, kernelStackTop slot ∈ s.live → HoldsPages s.machine slot dataPages
  apart : ∀ slot slot', kernelStackTop slot ∈ s.live → kernelStackTop slot' ∈ s.live →
    ∀ q ∈ dataPages, ∀ q' ∈ dataPages,
      stackFrame s.machine slot q = stackFrame s.machine slot' q' → slot = slot'
  nonzero : ∀ slot, kernelStackTop slot ∈ s.live → ∀ q ∈ dataPages,
    stackFrame s.machine slot q ≠ 0
  guard : ∀ slot, kernelStackTop slot ∈ s.live → isPresent (stackPte s.machine slot 0) = false

namespace StacksInv

variable {s : KernelStacks} {m : Machine} {slot : Nat}

theorem lt_of_live (h : StacksInv s) (hlive : kernelStackTop slot ∈ s.live) :
    slot < kernelStackSlots ∧ s.machine.kstackBitmap slot = true := by
  obtain ⟨slot', hlt, htop, hbit⟩ := h.slot _ hlive
  rw [kernelStackTop_inj htop]
  exact ⟨hlt, hbit⟩

/-- An unused slot is that of no live stack. -/
theorem not_live (h : StacksInv s) (hbit : s.machine.kstackBitmap slot = false) :
    kernelStackTop slot ∉ s.live := by
  intro hlive
  have hset := (h.lt_of_live hlive).2
  rw [hbit] at hset
  cases hset

theorem pte_eq (h : StacksInv s) {slot' q : Nat} (hlive : kernelStackTop slot ∈ s.live)
    (hslot' : slot' < kernelStackSlots) (hwrites : SlotWrites slot' s.machine m)
    (hne : slot ≠ slot') (hq : q ≤ 4) : stackPte m slot q = stackPte s.machine slot q :=
  hwrites.stackPte_eq h.tables hslot' (h.lt_of_live hlive).1 hq hne

theorem le_four_of_data {q : Nat} (hq : q ∈ dataPages) : q ≤ 4 := by
  have := mem_dataPages.mp hq
  omega

/-- The live stacks in a machine that keeps their entries, their frames and their slots. -/
theorem keep (h : StacksInv s) {live : List Nat} (htables : DirectTables m)
    (hmax : m.pmm.maxPage = s.machine.pmm.maxPage) (hzero : m.pmm.bitmap 0 = true)
    (hnodup : live.Nodup) (hsub : ∀ stackTop ∈ live, stackTop ∈ s.live)
    (hslots : ∀ slot, kernelStackTop slot ∈ live → m.kstackBitmap slot = true)
    (hpte : ∀ slot, kernelStackTop slot ∈ live → ∀ q ≤ 4,
      stackPte m slot q = stackPte s.machine slot q)
    (hused : ∀ slot, kernelStackTop slot ∈ live → ∀ q ∈ dataPages,
      m.pmm.bitmap (stackFrame s.machine slot q) = true) : StacksInv ⟨m, live⟩ where
  tables := htables
  limit := hmax ▸ h.limit
  zero := hzero
  nodup := hnodup
  slot stackTop hlive := by
    obtain ⟨slot, hlt, htop, -⟩ := h.slot stackTop (hsub _ hlive)
    exact ⟨slot, hlt, htop, hslots slot (htop ▸ hlive)⟩
  holds slot hlive :=
    (h.holds slot (hsub _ hlive)).congr (fun q hq => hpte slot hlive q (le_four_of_data hq)) hmax
      (hused slot hlive)
  apart slot slot' hlive hlive' q hq q' hq' heq := by
    dsimp only at heq
    rw [stackFrame, stackFrame, hpte slot hlive q (le_four_of_data hq),
      hpte slot' hlive' q' (le_four_of_data hq')] at heq
    exact h.apart slot slot' (hsub _ hlive) (hsub _ hlive') q hq q' hq' heq
  nonzero slot hlive q hq := by
    dsimp only
    rw [stackFrame, hpte slot hlive q (le_four_of_data hq)]
    exact h.nonzero slot (hsub _ hlive) q hq
  guard slot hlive := by
    rw [hpte slot hlive 0 (Nat.zero_le 4)]
    exact h.guard slot (hsub _ hlive)

/-- A new stack. -/
theorem given (h : StacksInv s) (hgiven : StackGiven s.machine m slot) :
    StacksInv ⟨m, kernelStackTop slot :: s.live⟩ := by
  have hnew := h.not_live hgiven.unused
  have hne : ∀ slot', kernelStackTop slot' ∈ s.live → slot' ≠ slot := by
    rintro slot' hlive rfl
    exact hnew hlive
  have hkept : ∀ f, s.machine.pmm.bitmap f = true → m.pmm.bitmap f = true := fun f hf =>
    (hgiven.bitmap f).mpr (Or.inl hf)
  have hold : StacksInv ⟨m, s.live⟩ := by
    refine h.keep (hgiven.writes.directTables h.tables) hgiven.maxPage (hkept 0 h.zero) h.nodup
      (fun _ hlive => hlive) ?_ ?_ ?_
    · intro slot' hlive
      rw [hgiven.slots, Function.update_of_ne (hne slot' hlive)]
      exact (h.lt_of_live hlive).2
    · exact fun slot' hlive q hq => h.pte_eq hlive hgiven.lt hgiven.writes (hne slot' hlive) hq
    · exact fun slot' hlive q hq => hkept _ ((h.holds slot' hlive).used q hq)
  -- the frames of the new stack were free, those of the others were not
  have hdiffers : ∀ slot', kernelStackTop slot' ∈ s.live → ∀ q ∈ dataPages, ∀ q' ∈ dataPages,
      stackFrame m slot q ≠ stackFrame m slot' q' := by
    intro slot' hlive q hq q' hq' heq
    have hfresh := hgiven.fresh q hq
    have hframe : stackFrame m slot' q' = stackFrame s.machine slot' q' :=
      congrArg frameOf
        (h.pte_eq hlive hgiven.lt hgiven.writes (hne slot' hlive) (le_four_of_data hq'))
    rw [heq, hframe, (h.holds slot' hlive).used q' hq'] at hfresh
    cases hfresh
  have hcases : ∀ slot', kernelStackTop slot' ∈ kernelStackTop slot :: s.live →
      slot' = slot ∨ kernelStackTop slot' ∈ s.live := fun slot' hlive =>
    (List.mem_cons.mp hlive).imp_left kernelStackTop_inj
  refine ⟨hold.tables, hold.limit, hold.zero, List.nodup_cons.mpr ⟨hnew, h.nodup⟩, ?_, ?_, ?_, ?_,
    ?_⟩
  · refine List.forall_mem_cons.mpr ⟨⟨slot, hgiven.lt, rfl, ?_⟩, hold.slot⟩
    rw [hgiven.slots, Function.update_self]
  · intro slot' hlive
    cases hcases slot' hlive with
    | inl heq =>
      subst heq
      exact hgiven.holds
    | inr hlive => exact hold.holds slot' hlive
  · intro slot₁ slot₂ hlive₁ hlive₂ q hq q' hq' heq
    cases hcases slot₁ hlive₁ with
    | inl hfirst =>
      subst hfirst
      cases hcases slot₂ hlive₂ with
      | inl hsecond => exact hsecond.symm
      | inr hlive => exact absurd heq (hdiffers slot₂ hlive q hq q' hq')
    | inr hlive =>
      cases hcases slot₂ hlive₂ with
      | inl hsecond =>
        subst hsecond
        exact absurd heq.symm (hdiffers slot₁ hlive q' hq' q hq)
      | inr hlive' => exact hold.apart slot₁ slot₂ hlive hlive' q hq q' hq' heq
  · intro slot' hlive q hq
    cases hcases slot' hlive with
    | inl heq =>
      subst heq
      intro hframe
      have hfresh := hgiven.fresh q hq
      rw [show stackFrame m slot' q = 0 from hframe, h.zero] at hfresh
      cases hfresh
    | inr hlive => exact hold.nonzero slot' hlive q hq
  · intro slot' hlive
    cases hcases slot' hlive with
    | inl heq =>
      subst heq
      exact hgiven.guard
    | inr hlive => exact hold.guard slot' hlive

/-- A refused allocation leaves every entry of a live stack. -/
theorem refused_pte (h : StacksInv s) (hrefused : StackRefused s.machine m)
    (hlive : kernelStackTop slot ∈ s.live) {q : Nat} (hq : q ≤ 4) :
    stackPte m slot q = stackPte s.machine slot q := by
  cases hrefused.writes with
  | inl hsame => rw [hsame]
  | inr hother =>
    obtain ⟨slot', hlt, hbit, hwrites⟩ := hother
    refine h.pte_eq hlive hlt hwrites ?_ hq
    rintro rfl
    exact h.not_live hbit hlive

theorem refused (h : StacksInv s) (hrefused : StackRefused s.machine m) :
    StacksInv ⟨m, s.live⟩ := by
  have htables : DirectTables m := by
    cases hrefused.writes with
    | inl hsame => exact hsame ▸ h.tables
    | inr hother =>
      obtain ⟨_, _, _, hwrites⟩ := hother
      exact hwrites.directTables h.tables
  refine h.keep htables hrefused.maxPage (by rw [hrefused.bitmap]; exact h.zero) h.nodup
    (fun _ hlive => hlive) ?_ (fun _ hlive _ hq => h.refused_pte hrefused hlive hq) ?_
  · intro slot hlive
    rw [hrefused.slots]
    exact (h.lt_of_live hlive).2
  · intro slot hlive q hq
    rw [hrefused.bitmap]
    exact (h.holds slot hlive).used q hq

theorem freed (h : StacksInv s) (hlive : kernelStackTop slot ∈ s.live) :
    PagesFreed (s.machine.setSlot slot false)
      (vmmFreeKernelStack s.machine (kernelStackTop slot)) slot dataPages :=
  vmmFreeKernelStack_exact h.tables h.limit (h.lt_of_live hlive).1 (h.holds slot hlive)

theorem freed_pte (h : StacksInv s) (hlive : kernelStackTop slot ∈ s.live) {slot' q : Nat}
    (hlive' : kernelStackTop slot' ∈ s.live) (hne : slot' ≠ slot) (hq : q ≤ 4) :
    stackPte (vmmFreeKernelStack s.machine (kernelStackTop slot)) slot' q =
      stackPte s.machine slot' q :=
  h.pte_eq hlive' (h.lt_of_live hlive).1
    (vmmFreeKernelStack_writes h.tables (h.lt_of_live hlive).1) hne hq

theorem free (h : StacksInv s) (hlive : kernelStackTop slot ∈ s.live) :
    StacksInv ⟨vmmFreeKernelStack s.machine (kernelStackTop slot),
      s.live.erase (kernelStackTop slot)⟩ := by
  have hfreed := h.freed hlive
  have hother : ∀ slot', kernelStackTop slot' ∈ s.live.erase (kernelStackTop slot) →
      kernelStackTop slot' ∈ s.live ∧ slot' ≠ slot := by
    intro slot' hmem
    obtain ⟨hne, hmem⟩ := h.nodup.mem_erase_iff.mp hmem
    exact ⟨hmem, fun heq => hne (heq ▸ rfl)⟩
  have hslots : ∀ slot' ≠ slot,
      (vmmFreeKernelStack s.machine (kernelStackTop slot)).kstackBitmap slot' =
        s.machine.kstackBitmap slot' := by
    intro slot' hne
    rw [hfreed.slots]
    exact Function.update_of_ne hne _ _
  refine h.keep ((vmmFreeKernelStack_writes h.tables (h.lt_of_live hlive).1).directTables h.tables)
    hfreed.maxPage ?_ (h.nodup.erase _) (fun _ hmem => List.mem_of_mem_erase hmem) ?_ ?_ ?_
  · exact (hfreed.bitmap 0).mpr ⟨h.zero, fun q hq => h.nonzero slot hlive q hq⟩
  · intro slot' hmem
    obtain ⟨hlive', hne⟩ := hother slot' hmem
    rw [hslots slot' hne]
    exact (h.lt_of_live hlive').2
  · intro slot' hmem q hq
    obtain ⟨hlive', hne⟩ := hother slot' hmem
    exact h.freed_pte hlive hlive' hne hq
  · intro slot' hmem q hq
    obtain ⟨hlive', hne⟩ := hother slot' hmem
    refine (hfreed.bitmap _).mpr ⟨(h.holds slot' hlive').used q hq, fun q' hq' heq => ?_⟩
    exact hne (h.apart slot slot' hlive hlive' q' hq' q hq heq).symm

theorem freeTop (h : StacksInv s) {stackTop : Nat} (hlive : stackTop ∈ s.live) :
    StacksInv ⟨vmmFreeKernelStack s.machine stackTop, s.live.erase stackTop⟩ := by
  obtain ⟨slot, -, htop, -⟩ := h.slot stackTop hlive
  rw [htop] at hlive ⊢
  exact h.free hlive

/-- One operation. -/
theorem step (h : StacksInv s) {op : StackOp} {s' : KernelStacks} (hoffered : op.Offered s)
    (hstep : op.step s = some s') : StacksInv s' := by
  cases op with
  | alloc =>
    unfold StackOp.step at hstep
    rcases vmmAllocKernelStack_exact h.tables h.limit h.zero with
      ⟨m, slot, hres, hgiven⟩ | ⟨m, hres, hrefused⟩
    · have hlive := h.given hgiven
      generalize kernelStackTop slot = stackTop at hres hlive
      rw [hres] at hstep
      cases hstep
      exact hlive
    · rw [hres] at hstep
      cases hstep
      exact h.refused hrefused
  | free stackTop =>
    obtain rfl : _ = s' := Option.some.inj hstep
    exact h.freeTop hoffered
  | other pmm =>
    obtain rfl : _ = s' := Option.some.inj hstep
    obtain ⟨hmax, hzero, hused⟩ := hoffered
    have htables : DirectTables (s.machine.withPmm pmm) := ⟨h.tables.table, h.tables.inj⟩
    exact h.keep htables hmax hzero h.nodup (fun _ hlive => hlive)
      (fun slot hlive => (h.lt_of_live hlive).2) (fun _ _ _ _ => rfl) hused

end StacksInv

/-- An allocation that returns 0 leaves the slots, the allocated frames and the live stacks. -/
structure AllocFails (s : KernelStacks) (m : Machine) : Prop where
  slots : m.kstackBitmap = s.machine.kstackBitmap
  bitmap : m.pmm.bitmap = s.machine.pmm.bitmap
  others : ∀ slot, kernelStackTop slot ∈ s.live → ∀ q ≤ 4,
    stackPte m slot q = stackPte s.machine slot q

/-- A free returns exactly the frames of its stack and leaves the other stacks. -/
structure FreesExactly (s : KernelStacks) (slot : Nat) : Prop where
  allocated : ∀ q ∈ dataPages, s.machine.pmm.bitmap (stackFrame s.machine slot q) = true
  bitmap : ∀ f, (vmmFreeKernelStack s.machine (kernelStackTop slot)).pmm.bitmap f = true ↔
    s.machine.pmm.bitmap f = true ∧ ∀ q ∈ dataPages, stackFrame s.machine slot q ≠ f
  others : ∀ slot', kernelStackTop slot' ∈ s.live → slot' ≠ slot → ∀ q ≤ 4,
    stackPte (vmmFreeKernelStack s.machine (kernelStackTop slot)) slot' q =
      stackPte s.machine slot' q

/-- The stacks of a state, and the next call there. -/
structure StacksExact (s : KernelStacks) : Prop where
  nodup : s.live.Nodup
  slot : ∀ stackTop ∈ s.live, ∃ slot < kernelStackSlots, stackTop = kernelStackTop slot
  mapped : ∀ slot, kernelStackTop slot ∈ s.live → ∀ q ∈ dataPages,
    isPresent (stackPte s.machine slot q) = true ∧
      hasFlag (stackPte s.machine slot q) pageUser = false
  frames : ∀ slot slot', kernelStackTop slot ∈ s.live → kernelStackTop slot' ∈ s.live →
    ∀ q ∈ dataPages, ∀ q' ∈ dataPages,
      stackFrame s.machine slot q = stackFrame s.machine slot' q' → slot = slot' ∧ q = q'
  guard : ∀ slot, kernelStackTop slot ∈ s.live → isPresent (stackPte s.machine slot 0) = false
  returns : vmmAllocKernelStack s.machine ≠ .halted
  fails : ∀ m, vmmAllocKernelStack s.machine = .failed m → AllocFails s m
  frees : ∀ slot, kernelStackTop slot ∈ s.live → FreesExactly s slot

theorem StacksInv.exact {s : KernelStacks} (h : StacksInv s) : StacksExact s where
  nodup := h.nodup
  slot stackTop hlive := by
    obtain ⟨slot, hlt, htop, -⟩ := h.slot stackTop hlive
    exact ⟨slot, hlt, htop⟩
  mapped slot hlive q hq := by
    have hholds := h.holds slot hlive
    have hframe : stackFrame s.machine slot q < 1048576 := (hholds.lt q hq).trans_le h.limit
    rw [hholds.entry q hq]
    exact ⟨stackFlags_mapFlags.mapped _, not_user_of_entry hframe⟩
  frames slot slot' hlive hlive' q hq q' hq' heq := by
    have hsame := h.apart slot slot' hlive hlive' q hq q' hq' heq
    subst hsame
    exact ⟨rfl, (h.holds slot hlive).inj q hq q' hq' heq⟩
  guard := h.guard
  returns := by
    rcases vmmAllocKernelStack_exact h.tables h.limit h.zero with
      ⟨m, slot, hres, -⟩ | ⟨m, hres, -⟩
    · rw [hres]
      rintro ⟨⟩
    · rw [hres]
      rintro ⟨⟩
  fails m hfailed := by
    rcases vmmAllocKernelStack_exact h.tables h.limit h.zero with
      ⟨m', slot, hres, -⟩ | ⟨m', hres, hrefused⟩
    · rw [hres] at hfailed
      cases hfailed
    · rw [hres] at hfailed
      cases hfailed
      exact ⟨hrefused.slots, hrefused.bitmap, fun slot hlive q hq =>
        h.refused_pte hrefused hlive hq⟩
  frees slot hlive :=
    ⟨(h.holds slot hlive).used, (h.freed hlive).bitmap, fun _ hlive' hne _ hq =>
      h.freed_pte hlive hlive' hne hq⟩

section Boot

variable {image : BootImage} {info : BootInfo} {ram : Nat → Nat → Word} {s₀ : System}
  {s : KernelStacks}

/-- The kernel that was started has no stack. -/
theorem StacksInv.boot (hboot : System.boot image info ram = some s₀) :
    StacksInv ⟨s₀.machine, []⟩ := by
  obtain ⟨own, hstart⟩ := System.boot_inv hboot
  have hinv := hstart.sys.inv
  refine ⟨hstart.sys.half.directTables, hinv.limit, hinv.zeroBit, List.nodup_nil, ?_, ?_, ?_, ?_,
    ?_⟩
  · simp
  · simp
  · simp
  · simp
  · simp

/-- The stacks in every state reached. -/
theorem kernel_stacks_exact (hboot : System.boot image info ram = some s₀)
    (hrun : Reach StackOp.step (fun s op => op.Offered s) ⟨s₀.machine, []⟩ s) : StacksExact s := by
  have hinv : StacksInv s := by
    refine hrun.invariant (P := StacksInv) (StacksInv.boot hboot) ?_
    intro s op s' h hoffered hstep
    exact h.step hoffered hstep
  exact hinv.exact

end Boot

/-- The first stack of the small machine. -/
theorem kernel_stacks_exact_small : ∃ s₀ s,
    System.boot smallImage smallInfo (fun _ _ => 0#32) = some s₀ ∧
      Reach StackOp.step (fun s op => op.Offered s) ⟨s₀.machine, []⟩ s ∧
      s.live = [kernelStackTop 0] ∧ StacksExact s := by
  have hsmall : (smallBoot.bind fun s => StackOp.step ⟨s.machine, []⟩ .alloc).any
      (fun s => decide (s.live = [kernelStackTop 0])) = true := by decide +kernel
  obtain ⟨s, hs, hlive⟩ := (Option.any_eq_true _ _).mp hsmall
  obtain ⟨s₀, hboot, hstep⟩ := Option.bind_eq_some_iff.mp hs
  have hboot' := System.boot_small.trans hboot
  have hrun : Reach StackOp.step (fun s op => op.Offered s) ⟨s₀.machine, []⟩ s :=
    .next (i := .alloc) .start trivial hstep
  exact ⟨s₀, s, hboot', hrun, by simpa using hlive, kernel_stacks_exact hboot' hrun⟩

end EnclaveOS
