import EnclaveOS.Process.ForkFrame

/-!
# ForkFrameSpec - fork returns twice
-/

namespace EnclaveOS

open ByteMemory

theorem push_esp (c : Cpu) (w : Word) (hfit : 4 ≤ c.esp.toNat) :
    (c.push w).esp.toNat = c.esp.toNat - 4 := by
  change (c.esp - 4#32).toNat = _
  rw [BitVec.toNat_sub_of_le (by rw [BitVec.le_def]; exact hfit)]
  rfl

/-- Words pushed one after another stand in reverse. -/
theorem foldl_push (ws : List Word) {c : Cpu} {xs : List Word}
    (hfit : 4 * ws.length ≤ c.esp.toNat) (h : Holds c.mem c.esp.toNat xs) :
    (ws.foldl Cpu.push c).esp.toNat = c.esp.toNat - 4 * ws.length ∧
      Holds (ws.foldl Cpu.push c).mem (ws.foldl Cpu.push c).esp.toNat (ws.reverse ++ xs) := by
  induction ws generalizing c xs with
  | nil => exact ⟨rfl, h⟩
  | cons w ws ih =>
    rw [List.length_cons] at hfit
    have hesp := push_esp c w (by omega)
    have hpush : Holds (c.push w).mem (c.push w).esp.toNat (w :: xs) := by
      have hrow := h.push (by omega) w
      rw [← hesp] at hrow
      exact hrow
    obtain ⟨hsp, hrow⟩ := ih (by omega) hpush
    rw [List.foldl_cons, List.length_cons, List.reverse_cons, List.append_assoc]
    exact ⟨by omega, hrow⟩

theorem int80_frame (c : Cpu) {esp0 : Word} (hfit : sizeofRegs ≤ esp0.toNat) :
    (int80 c esp0).esp.toNat = esp0.toNat - sizeofRegs ∧
      Holds (int80 c esp0).mem (int80 c esp0).esp.toNat (interruptPushes c esp0).reverse := by
  have hempty : Holds c.mem esp0.toNat [] := trivial
  have hpush := foldl_push (interruptPushes c esp0) (c := { c with esp := esp0 }) hfit hempty
  rw [List.append_nil] at hpush
  exact hpush

section Pop

variable {regs : Registers} {mem : Bytes} {slots : List Nat} {a : Nat}

theorem pop_ofNat (set : Word → Registers → Registers) (ha : a < 4294967296) :
    Cpu.pop ⟨regs, BitVec.ofNat 32 a, mem, slots⟩ set =
      ⟨set (loadWord mem a) regs, BitVec.ofNat 32 (a + 4), mem, slots ++ [a]⟩ := by
  unfold Cpu.pop
  dsimp only
  rw [BitVec.toNat_ofNat, Nat.mod_eq_of_lt ha, BitVec.ofNat_add]

/-- Pushing leaves the bytes above `ESP` alone. -/
theorem foldl_push_above (ws : List Word) {c : Cpu} (hfit : 4 * ws.length ≤ c.esp.toNat) {k : Nat}
    (hk : c.esp.toNat ≤ k) : (ws.foldl Cpu.push c).mem k = c.mem k := by
  induction ws generalizing c with
  | nil => rfl
  | cons w ws ih =>
    rw [List.length_cons] at hfit
    have hesp := push_esp c w (by omega)
    have hmem : (c.push w).mem = storeWord c.mem (c.push w).esp.toNat w := rfl
    rw [List.foldl_cons, ih (by omega) (by omega), hmem, hesp, storeWord_of_outside (by omega)]

/-- The slots of a `struct regs` that the return path reads. -/
def regsSlots (r : Nat) : List Nat :=
  [r, r + 4, r + 8, r + 12, r + 16, r + 20, r + 24, r + 28, r + 32, r + 36, r + 40, r + 44,
    r + 56, r + 60, r + 64, r + 68, r + 72]

/-- The `struct regs` of a program that entered the kernel in state `c`, with the
result `v` in `eax`. -/
def userFrame (c : Cpu) (esp0 v : Word) : List Word :=
  let r := c.regs
  [segmentWord r.eax r.gs, segmentWord r.eax r.fs, segmentWord r.eax r.es,
    segmentWord r.eax r.ds, r.edi, r.esi, r.ebp, esp0 - 28#32, r.ebx, r.edx, r.ecx, v,
    0x80#32, 0#32, r.eip, r.cs.setWidth 32, r.eflags, c.esp, r.ss.setWidth 32]

theorem selector_segmentWord (eax : Word) (seg : BitVec 16) :
    selector (segmentWord eax seg) = seg := by
  unfold selector segmentWord
  apply BitVec.eq_of_getLsbD_eq
  intro i hi
  rw [BitVec.getLsbD_setWidth, BitVec.getLsbD_append]
  simp [hi]

theorem selector_setWidth (seg : BitVec 16) : selector (seg.setWidth 32) = seg := by
  unfold selector
  apply BitVec.eq_of_getLsbD_eq
  intro i hi
  rw [BitVec.getLsbD_setWidth, BitVec.getLsbD_setWidth]
  simp [hi, Nat.lt_trans hi (by omega : 16 < 32)]

/-- The return path from a `struct regs` ends in the state the program was in. -/
theorem restoreRegs_frame {c : Cpu} {esp0 v : Word} (hring : c.regs.cs.toNat % 4 = 3)
    (h : Holds mem a (userFrame c esp0 v)) (hfit : a + sizeofRegs < 4294967296) :
    restoreRegs ⟨regs, BitVec.ofNat 32 a, mem, slots⟩ =
      ⟨{ c.regs with eax := v }, c.esp, mem, slots ++ regsSlots a⟩ := by
  obtain ⟨hgs, hfs, hes, hds, hedi, hesi, hebp, -, hebx, hedx, hecx, heax, -, -, heip, hcs,
    heflags, hesp, hss, -⟩ := h
  unfold sizeofRegs at hfit
  have hskip : ∀ k : Nat, BitVec.ofNat 32 k + 8#32 = BitVec.ofNat 32 (k + 8) :=
    fun k => (BitVec.ofNat_add k 8).symm
  simp only [Nat.add_assoc, Nat.reduceAdd] at *
  have htoNat : (BitVec.ofNat 32 (a + 68)).toNat = a + 68 :=
    Nat.mod_eq_of_lt (by omega)
  unfold restoreRegs iret
  simp (disch := omega) only [pop_ofNat, hskip, Nat.add_assoc, Nat.reduceAdd, hgs, hfs, hes, hds,
    hedi, hesi, hebp, hebx, hedx, hecx, heax, heip, hcs, heflags, hesp, hss,
    htoNat, selector_segmentWord, selector_setWidth, List.append_assoc, List.cons_append,
    List.nil_append, regsSlots]
  exact if_pos hring

end Pop

/-- The words below the `struct regs` of the child. -/
def switchFrame (retFromFork : Word) (childR : Nat) : List Word :=
  [0#32, 0#32, 0#32, 0#32, retFromFork, BitVec.ofNat 32 childR]

section Forge

variable {retFromFork : Word} {parentTop childTop : Nat} {mem mem' : Bytes}

/-- Two stacks of the pool, each with its usable pages. -/
structure StacksApart (parentTop childTop : Nat) : Prop where
  parent : kernelStackUsableSize ≤ parentTop
  child : kernelStackUsableSize ≤ childTop
  fits : childTop < 4294967296
  apart : parentTop + kernelStackUsableSize ≤ childTop ∨
    childTop + kernelStackUsableSize ≤ parentTop

/-- The stack of the child after `task_fork`: the switch frame, and above it the
`struct regs` of the parent, 32 bytes lower, with `eax` zero. -/
theorem taskForkStack_holds (retFromFork : Word) (hs : StacksApart parentTop childTop) {ws : List Word}
    (hws : ws.length = 19) (h : Holds mem (parentTop - sizeofRegs) ws) :
    (taskForkStack retFromFork parentTop childTop (parentTop - sizeofRegs) mem).2 =
        BitVec.ofNat 32 (childTop - 132) ∧
      Holds (taskForkStack retFromFork parentTop childTop (parentTop - sizeofRegs) mem).1
        (childTop - 132) (switchFrame retFromFork (childTop - 108) ++ ws.set 11 0#32) := by
  obtain ⟨hparent, hchild, -, hapart⟩ := hs
  unfold taskForkStack
  unfold kernelStackUsableSize sizeofRegs at *
  dsimp only
  have hr : childTop - 4 * 4096 + (parentTop - 76 - (parentTop - 4 * 4096)) = childTop - 76 := by
    omega
  have hr' : childTop - 76 - 32 = childTop - 108 := by omega
  rw [hr, hr']
  have hcopied : Holds (copy mem (childTop - 4 * 4096) (parentTop - 4 * 4096) (4 * 4096))
      (childTop - 76) ws := by
    refine h.congr fun i hi => ?_
    have hsource : parentTop - 4 * 4096 + (childTop - 76 + i - (childTop - 4 * 4096)) =
        parentTop - 76 + i := by
      clear hr hr' hapart
      omega
    rw [copy_apply mem (by omega), if_pos (by omega), hsource]
  generalize copy mem (childTop - 4 * 4096) (parentTop - 4 * 4096) (4 * 4096) = m at hcopied ⊢
  have hmoved : Holds (copy m (childTop - 108) (childTop - 76) 76) (childTop - 108) ws := by
    refine hcopied.congr fun i hi => ?_
    rw [copy_apply m (by omega), if_pos (by omega)]
    exact congrArg m (by omega)
  generalize copy m (childTop - 108) (childTop - 76) 76 = m' at hmoved ⊢
  have hzero := hmoved.set (by omega : 11 < ws.length) 0#32
  have hrow := (((((hzero.push (by omega) (BitVec.ofNat 32 (childTop - 108))).push (by omega)
    retFromFork).push (by omega) 0#32).push (by omega) 0#32).push (by omega) 0#32).push
    (by omega) 0#32
  simp only [Nat.sub_sub, Nat.reduceAdd] at hrow ⊢
  exact ⟨trivial, hrow⟩

/-- The stack of the parent, and everything else outside of the child's stack, stays. -/
theorem taskForkStack_outside (hs : StacksApart parentTop childTop) {k : Nat}
    (hk : k < childTop - kernelStackUsableSize ∨ childTop ≤ k) :
    (taskForkStack retFromFork parentTop childTop (parentTop - sizeofRegs) mem).1 k = mem k := by
  obtain ⟨hparent, hchild, -, hapart⟩ := hs
  unfold taskForkStack regsEax
  unfold kernelStackUsableSize sizeofRegs at *
  dsimp only
  repeat rw [storeWord_of_outside (by omega)]
  rw [copy_apply _ (by omega), if_neg (by omega), copy_apply _ (by omega), if_neg (by omega)]

/-- What the stack of the child holds was written by `task_fork`. -/
theorem taskForkStack_written (hs : StacksApart parentTop childTop)
    (heq : ∀ k, k < childTop - kernelStackUsableSize ∨ childTop ≤ k → mem' k = mem k) {k : Nat}
    (hlo : childTop - kernelStackUsableSize ≤ k) (hhi : k < childTop) :
    (taskForkStack retFromFork parentTop childTop (parentTop - sizeofRegs) mem').1 k =
      (taskForkStack retFromFork parentTop childTop (parentTop - sizeofRegs) mem).1 k := by
  obtain ⟨hparent, hchild, -, hapart⟩ := hs
  unfold kernelStackUsableSize sizeofRegs at *
  have hcopied : ∀ j, childTop - 4 * 4096 ≤ j → j < childTop →
      copy mem' (childTop - 4 * 4096) (parentTop - 4 * 4096) (4 * 4096) j =
        copy mem (childTop - 4 * 4096) (parentTop - 4 * 4096) (4 * 4096) j := by
    intro j hj hj'
    rw [copy_apply mem (by omega), copy_apply mem' (by omega), if_pos (by omega),
      if_pos (by omega)]
    exact heq _ (by omega)
  unfold taskForkStack kernelStackUsableSize sizeofRegs
  dsimp only
  generalize copy mem (childTop - 4 * 4096) (parentTop - 4 * 4096) (4 * 4096) = m at hcopied ⊢
  generalize copy mem' (childTop - 4 * 4096) (parentTop - 4 * 4096) (4 * 4096) = m' at hcopied ⊢
  repeat apply storeWord_congr
  rw [copy_apply m (by omega), copy_apply m' (by omega)]
  split_ifs
  · exact hcopied _ (by omega) (by omega)
  · exact hcopied k hlo hhi

end Forge

/-- `switch_context` on a forged stack ends where the frame above it says. -/
theorem switchContext_frame {c cpu : Cpu} {esp0 v retFromFork : Word} {a : Nat}
    (hring : c.regs.cs.toNat % 4 = 3) (hfit : a + 100 < 4294967296)
    (h : Holds cpu.mem a (switchFrame retFromFork (a + 24) ++ userFrame c esp0 v)) :
    switchContext retFromFork cpu (BitVec.ofNat 32 a) =
      some ⟨{ c.regs with eax := v }, c.esp, cpu.mem,
        [a, a + 4, a + 8, a + 12, a + 16, a + 20] ++ regsSlots (a + 24)⟩ := by
  obtain ⟨hswitch, hframe⟩ := holds_append.mp h
  obtain ⟨-, -, -, -, hret, hpop, -⟩ := hswitch
  replace hframe : Holds cpu.mem (a + 24) (userFrame c esp0 v) := hframe
  simp only [Nat.add_assoc, Nat.reduceAdd] at *
  have htoNat : (BitVec.ofNat 32 (a + 20)).toNat = a + 20 := Nat.mod_eq_of_lt (by omega)
  unfold switchContext retFromForkPath
  simp (disch := omega) only [pop_ofNat, Nat.add_assoc, Nat.reduceAdd, hret, if_true, htoNat, hpop]
  rw [restoreRegs_frame hring hframe (by unfold sizeofRegs; omega)]
  rfl

theorem stacksApart_slots {parent child : Nat} (hparent : parent < kernelStackSlots)
    (hchild : child < kernelStackSlots) (hne : parent ≠ child) :
    StacksApart (kernelStackTop parent) (kernelStackTop child) := by
  have hslots : kernelStackSlots = 819 := by decide
  have htop : ∀ slot, kernelStackTop slot = 0xC8000000 + slot * 20480 + 20480 := fun _ => rfl
  have husable : kernelStackUsableSize = 16384 := rfl
  refine ⟨?_, ?_, ?_, ?_⟩ <;> simp only [htop, husable] <;> omega

/-- The address of the `struct regs` on a kernel stack. -/
abbrev regsOf (stackTop : Nat) : Nat := stackTop - sizeofRegs

/-- The state of a program that returns from `fork` with a result. -/
def Cpu.Returns (c : Cpu) (result : Word) (c' : Cpu) : Prop :=
  c'.regs = { c.regs with eax := result } ∧ c'.esp = c.esp

section Returns

variable {retFromFork esp0 : Word} {c : Cpu} {parentTop childTop : Nat} {mem : Bytes}

/-- The parent returns through the stub with the result in `eax`. -/
theorem parent_returns (hring : c.regs.cs.toNat % 4 = 3) (hfit : parentTop < 4294967296)
    (hlow : sizeofRegs ≤ parentTop) {v pid : Word}
    (h : Holds mem (regsOf parentTop) (userFrame c esp0 v)) (regs : Registers) (slots : List Nat) :
    c.Returns pid (restoreRegs ⟨regs, BitVec.ofNat 32 (regsOf parentTop),
      setResult mem (regsOf parentTop) pid, slots⟩) := by
  have hset : Holds (setResult mem (regsOf parentTop) pid) (regsOf parentTop)
      (userFrame c esp0 pid) := h.set (by decide : 11 < 19) pid
  rw [restoreRegs_frame hring hset (by rw [Nat.sub_add_cancel hlow]; exact hfit)]
  exact ⟨rfl, rfl⟩

/-- The child enters Ring 3 from the forged stack, and reads nothing else. -/
theorem child_returns (hring : c.regs.cs.toNat % 4 = 3) (hs : StacksApart parentTop childTop)
    {v : Word} (h : Holds mem (regsOf parentTop) (userFrame c esp0 v)) {cpu : Cpu}
    (hkeep : ∀ k, childTop - kernelStackUsableSize ≤ k → k < childTop →
      cpu.mem k = (taskForkStack retFromFork parentTop childTop (regsOf parentTop) mem).1 k) :
    ∃ c', switchContext retFromFork cpu
        (taskForkStack retFromFork parentTop childTop (regsOf parentTop) mem).2 = some c' ∧
      c.Returns 0#32 c' ∧
      ∀ slot ∈ c'.slots, childTop - kernelStackUsableSize ≤ slot ∧ slot + 4 ≤ childTop := by
  have husable : kernelStackUsableSize = 16384 := rfl
  have hchild := hs.child
  have hfits := hs.fits
  obtain ⟨hesp, hrow⟩ := taskForkStack_holds retFromFork hs rfl h
  have hrow' : Holds cpu.mem (childTop - 132)
      (switchFrame retFromFork (childTop - 132 + 24) ++ userFrame c esp0 0#32) := by
    rw [show childTop - 132 + 24 = childTop - 108 by omega]
    refine hrow.congr fun i hi => hkeep _ ?_ ?_
    · omega
    · replace hi : i < 100 := hi
      omega
  rw [hesp, switchContext_frame hring (by omega) hrow']
  refine ⟨_, rfl, ⟨rfl, rfl⟩, fun slot hslot => ?_⟩
  simp only [regsSlots, List.cons_append, List.nil_append, List.mem_cons, List.not_mem_nil,
    or_false] at hslot
  omega

end Returns

/-- `fork` returns twice.  The program `c` enters the kernel from Ring 3, and
`mem` is the memory when `task_fork` forges the stack: what the handlers wrote
below the frame is arbitrary.  The child runs on any memory that keeps its stack. -/
theorem fork_returns_twice (retFromFork pid : Word) (c : Cpu) (hring : c.regs.cs.toNat % 4 = 3)
    {parent child : Nat} (hparent : parent < kernelStackSlots) (hchild : child < kernelStackSlots)
    (hne : parent ≠ child) {mem : Bytes}
    (hmem : ∀ k, regsOf (kernelStackTop parent) ≤ k → k < kernelStackTop parent →
      mem k = (int80 c (BitVec.ofNat 32 (kernelStackTop parent))).mem k) :
    let forked := taskForkStack retFromFork (kernelStackTop parent) (kernelStackTop child)
      (regsOf (kernelStackTop parent)) mem
    let base := kernelStackTop child - kernelStackUsableSize
    (∀ k, regsOf (kernelStackTop parent) ≤ k → k < kernelStackTop parent →
      forked.1 k = mem k) ∧
    (∀ (regs : Registers) (slots : List Nat), c.Returns pid (restoreRegs
      ⟨regs, BitVec.ofNat 32 (regsOf (kernelStackTop parent)),
        setResult forked.1 (regsOf (kernelStackTop parent)) pid, slots⟩)) ∧
    ∀ cpu : Cpu, (∀ k, base ≤ k → k < kernelStackTop child → cpu.mem k = forked.1 k) →
      ∃ c', switchContext retFromFork cpu forked.2 = some c' ∧ c.Returns 0#32 c' ∧
        ∀ slot ∈ c'.slots, base ≤ slot ∧ slot + 4 ≤ kernelStackTop child ∧
          ∀ mem', (∀ k, k < base ∨ kernelStackTop child ≤ k → mem' k = mem k) →
            loadWord (taskForkStack retFromFork (kernelStackTop parent) (kernelStackTop child)
              (regsOf (kernelStackTop parent)) mem').1 slot = loadWord cpu.mem slot := by
  have hapart := stacksApart_slots hparent hchild hne
  have htop : kernelStackTop parent = 0xC8000000 + parent * 20480 + 20480 := rfl
  have hslots : kernelStackSlots = 819 := by decide
  have hfit : kernelStackTop parent < 4294967296 := by omega
  have hlow : sizeofRegs ≤ kernelStackTop parent := by
    rw [htop]
    unfold sizeofRegs
    omega
  clear htop
  generalize kernelStackTop parent = parentTop at *
  generalize kernelStackTop child = childTop at *
  generalize hesp0 : BitVec.ofNat 32 parentTop = esp0 at hmem
  have hesp : esp0.toNat = parentTop := by
    rw [← hesp0]
    exact Nat.mod_eq_of_lt hfit
  have hframe : Holds mem (regsOf parentTop) (userFrame c esp0 c.regs.eax) := by
    obtain ⟨hsp, hrow⟩ := int80_frame c (hesp.symm ▸ hlow : sizeofRegs ≤ esp0.toNat)
    rw [hsp, hesp] at hrow
    refine hrow.congr fun i hi => hmem _ (by omega) ?_
    replace hi : i < 76 := hi
    unfold regsOf sizeofRegs at *
    omega
  have houtside : ∀ k, regsOf parentTop ≤ k → k < parentTop →
      k < childTop - kernelStackUsableSize ∨ childTop ≤ k := by
    intro k hlo hhi
    have happ := hapart.apart
    have husable : kernelStackUsableSize = 16384 := rfl
    unfold regsOf sizeofRegs at hlo
    have hparentLow := hapart.parent
    omega
  have hparentFrame : Holds (taskForkStack retFromFork parentTop childTop (regsOf parentTop) mem).1
      (regsOf parentTop) (userFrame c esp0 c.regs.eax) := by
    refine hframe.congr fun i hi => taskForkStack_outside hapart (houtside _ (by omega) ?_)
    replace hi : i < 76 := hi
    unfold regsOf sizeofRegs at *
    omega
  refine ⟨fun k hlo hhi => taskForkStack_outside hapart (houtside k hlo hhi),
    fun regs slots => parent_returns hring hfit hlow hparentFrame regs slots, fun cpu hkeep => ?_⟩
  obtain ⟨c', hrun, hreturns, hslots⟩ := child_returns hring hapart hframe hkeep
  refine ⟨c', hrun, hreturns, fun slot hslot => ?_⟩
  obtain ⟨hlo, hhi⟩ := hslots slot hslot
  refine ⟨hlo, hhi, fun mem' heq => loadWord_congr fun i hi => ?_⟩
  rw [hkeep _ (by omega) (by omega)]
  exact taskForkStack_written hapart heq (by omega) (by omega)

/-- A program in Ring 3. -/
def userProgram : Cpu :=
  ⟨⟨1#32, 2#32, 3#32, 4#32, 5#32, 6#32, 7#32, 0x08048000#32, 0x202#32, 0x1B#16, 0x23#16, 0x23#16,
    0x23#16, 0x23#16, 0x23#16⟩, 0xBFFFEFF0#32, fun _ => 0#8, []⟩

/-- The child of a program whose kernel stack is the first of the pool. -/
theorem fork_returns_twice_sample :
    let mem := (int80 userProgram (BitVec.ofNat 32 (kernelStackTop 0))).mem
    let forked := taskForkStack 9#32 (kernelStackTop 0) (kernelStackTop 1)
      (regsOf (kernelStackTop 0)) mem
    ∃ c', switchContext 9#32 ⟨userProgram.regs, 0#32, forked.1, []⟩ forked.2 = some c' ∧
      userProgram.Returns 0#32 c' := by
  intro mem forked
  obtain ⟨c', hrun, hreturns, -⟩ := (fork_returns_twice 9#32 2#32 userProgram (by decide)
    (by decide : 0 < kernelStackSlots) (by decide : 1 < kernelStackSlots) (by decide)
    (fun _ _ _ => rfl)).2.2 ⟨userProgram.regs, 0#32, forked.1, []⟩ fun _ _ _ => rfl
  exact ⟨c', hrun, hreturns⟩

end EnclaveOS
