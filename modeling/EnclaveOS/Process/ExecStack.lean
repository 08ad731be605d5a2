import EnclaveOS.Process.ForkFrameSpec
import EnclaveOS.Process.UserBuffers

/-!
# ExecStack - the arguments of a new image

`sys_exec_handler` copies the argument strings into a kernel buffer, and after the load it
builds the stack of the new image from them.  `_start` in `crt0.asm` reads that stack.
Memory is the bytes of the address space.
-/

namespace EnclaveOS

open ByteMemory

def execMaxArgs : Nat := 64
def execMaxArgLen : Nat := 256
def e2Big : Int := 7

/-- `k_strlen` of a row of the buffer. -/
def kStrlen (row : List (BitVec 8)) : Nat := (row.takeWhile (· ≠ 0#8)).length

/-- The row that an argument is copied to; a copy that fails leaves the empty string. -/
def copyArg (mem : Bytes) (uArg : Nat) : List (BitVec 8) :=
  match copyStringTo mem uArg execMaxArgLen with
  | (ret, row) => if ret < 0 then 0#8 :: row.tail else row

/-- The address of `user_argv[i]`. -/
def argvSlot (userArgv : Word) (i : Nat) : Nat := (userArgv + BitVec.ofNat 32 (4 * i)).toNat

/-- The collection loop from `i` on, with `n` rounds left. -/
def collectArgs (mem : Bytes) (userArgv : Word) : Nat → Nat → List (List (BitVec 8))
  | 0, _ => []
  | n + 1, i =>
    if !isUserPointer (argvSlot userArgv i) 4 then []
    else if loadWord mem (argvSlot userArgv i) = 0#32 then []
    else
      copyArg mem (loadWord mem (argvSlot userArgv i)).toNat :: collectArgs mem userArgv n (i + 1)

/-- The rows of `k_argv_buf`. -/
def execArgs (mem : Bytes) (userArgv : Word) : List (List (BitVec 8)) :=
  if isUserPointer userArgv.toNat 4 then collectArgs mem userArgv execMaxArgs 0 else []

/-- `total_args_size`. -/
def totalArgsSize (rows : List (List (BitVec 8))) : Nat :=
  (rows.map fun row => kStrlen row + 1).sum + (rows.length + 1) * 4 + 4 + 64

/-- The loop that copies the strings, the last one first: the memory, `stack_ptr` and
`argv_ptrs`. -/
def pushArgs (mem : Bytes) (stackPtr : Nat) : List (List (BitVec 8)) → Bytes × Nat × List Nat
  | [] => (mem, stackPtr, [])
  | row :: rest =>
    match pushArgs mem stackPtr rest with
    | (mem, stackPtr, ptrs) =>
      let len := kStrlen row + 1
      (storeBytes mem (stackPtr - len) (row.take len), stackPtr - len, (stackPtr - len) :: ptrs)

/-- A stack pointer outside of user space is replaced. -/
def clampStackPtr (stackPtr : Nat) : Nat :=
  if kernelSpaceStart ≤ stackPtr then kernelSpaceStart - 16 else stackPtr

/-- The memory and `stack_ptr` of the new image. -/
def buildStack (mem : Bytes) (rows : List (List (BitVec 8))) : Bytes × Nat :=
  match pushArgs mem userStackVirtTop rows with
  | (mem, stackPtr, ptrs) =>
    let argc := rows.length
    let stackPtr := clampStackPtr stackPtr
    let stackPtr := stackPtr - stackPtr % 4
    let mem := storeWord mem (stackPtr - 4) 0#32
    let stackPtr := stackPtr - 4 - 4 * (argc + 1)
    let mem := storeRow mem stackPtr (ptrs.map (BitVec.ofNat 32) ++ [0#32])
    let mem := storeWord mem (stackPtr - 4) (BitVec.ofNat 32 argc)
    (mem, clampStackPtr (stackPtr - 4))

/-- What `sys_exec_handler` leaves. -/
structure ExecOutcome where
  machine : Machine
  pdirVirt : Nat
  vmaHead : List Vma
  ret : Int
  /-- The memory of the new image and its `ESP`. -/
  stack : Option (Bytes × Nat)

/-- `sys_exec_handler`.  The user memory before the call is `mem`, that of the loaded
image `image`; `file` is what the path stands for. -/
def sysExecHandler (mem : Bytes) (userArgv : Word) (m : Machine) (pd : Nat) (vmas : List Vma)
    (file : Except Int VfsFile) (image : Bytes) (k : Kmalloc) : Option ExecOutcome :=
  match k.next with
  | (false, _) => some ⟨m, pd, vmas, -eNoMem, none⟩
  | (true, k) =>
    let rows := execArgs mem userArgv
    if userStackSize - userStackGuardSize < totalArgsSize rows then
      some ⟨m, pd, vmas, -e2Big, none⟩
    else
      match file with
      | .error e => some ⟨m, pd, vmas, e, none⟩
      | .ok file =>
        match sysExecMemory m pd vmas (.ok file) k with
        | none => none
        | some (m, pd, vmas, ret, _) =>
          if ret < 0 then some ⟨m, pd, vmas, ret, none⟩
          else some ⟨m, pd, vmas, 0, some (buildStack image rows)⟩

/-- `_start` up to the first instruction of `main`. -/
def crtStart (c : Cpu) (returnAddr : Word) : Cpu :=
  let c := { c with regs := { c.regs with eax := loadWord c.mem c.esp.toNat } }
  let c := { c with regs := { c.regs with ebx := c.esp + 4#32 } }
  let c := { c with regs := { c.regs with ecx := c.esp + c.regs.eax * 4#32 + 8#32 } }
  let c := c.push c.regs.ecx
  let c := c.push c.regs.ebx
  let c := c.push c.regs.eax
  c.push returnAddr

/-- A pointer to a string of user space. -/
structure ArgAt (mem : Bytes) (uArg : Nat) (arg : List (BitVec 8)) : Prop where
  nonnull : uArg ≠ 0
  ends : EndsAt mem uArg arg.length
  bytes : bytesFrom mem uArg arg.length = arg

/-- The vector at `user_argv` is the list `args`. -/
structure PassesArgs (mem : Bytes) (userArgv : Word) (args : List (List (BitVec 8))) : Prop where
  atMost : args.length ≤ execMaxArgs
  short : ∀ arg ∈ args, arg.length < 255
  slot : ∀ i (hi : i < args.length), isUserPointer (argvSlot userArgv i) 4 = true ∧
    ArgAt mem (loadWord mem (argvSlot userArgv i)).toNat args[i]
  stop : args.length < execMaxArgs → isUserPointer (argvSlot userArgv args.length) 4 = false ∨
    loadWord mem (argvSlot userArgv args.length) = 0#32

/-- The stack of a new image, from `ESP` up: the counter, the pointers, two null pointers
and the copies. -/
structure ArgStack (mem : Bytes) (esp : Nat) (args : List (List (BitVec 8))) (ptrs : List Nat) :
    Prop where
  bottom : userStackVirtTop - userStackSize ≤ esp
  top : esp + 4 * (args.length + 3) ≤ userStackVirtTop
  words : Holds mem esp
    (BitVec.ofNat 32 args.length :: (ptrs.map (BitVec.ofNat 32) ++ [0#32]) ++ [0#32])
  copies : List.Forall₂ (fun p arg => esp + 4 * (args.length + 3) ≤ p ∧
    p + (arg.length + 1) ≤ userStackVirtTop ∧ BytesAt mem p (arg ++ [0#8])) ptrs args
  apart : (ptrs.zip args).Pairwise fun x y => x.1 + (x.2.length + 1) ≤ y.1

/-- The arguments that `main` finds above its return address. -/
structure MainGets (c : Cpu) (args : List (List (BitVec 8))) (ptrs : List Nat) : Prop where
  argc : loadWord c.mem (c.esp.toNat + 4) = BitVec.ofNat 32 args.length
  argv : Holds c.mem (loadWord c.mem (c.esp.toNat + 8)).toNat (ptrs.map (BitVec.ofNat 32) ++ [0#32])
  envp : loadWord c.mem (loadWord c.mem (c.esp.toNat + 12)).toNat = 0#32
  strings : List.Forall₂ (fun p arg => BytesAt c.mem p (arg ++ [0#8])) ptrs args

section Collect

variable {mem : Bytes} {userArgv : Word} {args : List (List (BitVec 8))} {arg : List (BitVec 8)}

theorem ArgAt.no_nul {uArg : Nat} (h : ArgAt mem uArg arg) : 0#8 ∉ arg := by
  rw [← h.bytes]
  intro hmem
  obtain ⟨i, hi, hbyte⟩ := List.mem_map.mp hmem
  exact (h.ends.1 i (List.mem_range.mp hi)).2 hbyte

theorem copyArg_eq {uArg : Nat} (h : ArgAt mem uArg arg) (hshort : arg.length < 255) :
    copyArg mem uArg = arg ++ [0#8] := by
  have hcopy : copyStringTo mem uArg execMaxArgLen = (0, arg ++ [0#8]) := by
    have hlow : ¬kernelSpaceStart ≤ uArg := by
      have hend := h.ends.2.1
      omega
    have hroom : arg.length < execMaxArgLen - 1 := hshort
    rw [copyStringTo_loop h.nonnull hlow, copyStringLoop_ends h.ends hroom, h.bytes]
  rw [copyArg, hcopy]
  rfl

theorem kStrlen_row (hnul : 0#8 ∉ arg) : kStrlen (arg ++ [0#8]) = arg.length := by
  have hall : ∀ b ∈ arg, decide (b ≠ 0#8) = true := by
    intro b hb
    apply decide_eq_true
    rintro rfl
    exact hnul hb
  rw [kStrlen, List.takeWhile_append_of_pos hall]
  simp

/-- The loop collects what is left of the list. -/
theorem collectArgs_eq (h : PassesArgs mem userArgv args) (n : Nat) {i : Nat}
    (hi : i ≤ args.length) (hn : n + i = execMaxArgs) :
    collectArgs mem userArgv n i = (args.drop i).map (· ++ [0#8]) := by
  induction n generalizing i with
  | zero =>
    have hlen := h.atMost
    rw [List.drop_eq_nil_of_le (by omega)]
    rfl
  | succ n ih =>
    rw [collectArgs]
    rcases Nat.lt_or_ge i args.length with hlt | hge
    · obtain ⟨hptr, harg⟩ := h.slot i hlt
      have hne : loadWord mem (argvSlot userArgv i) ≠ 0#32 := by
        intro hzero
        apply harg.nonnull
        rw [hzero]
        rfl
      have hshort := h.short _ (List.getElem_mem hlt)
      rw [if_neg (by rw [hptr]; decide), if_neg hne, copyArg_eq harg hshort, ih hlt (by omega),
        List.drop_eq_getElem_cons hlt, List.map_cons]
    · obtain rfl : i = args.length := by omega
      rw [List.drop_length]
      rcases h.stop (by omega) with hptr | hnull
      · rw [if_pos (by rw [hptr]; rfl)]
        rfl
      · split_ifs
        · rfl
        · rfl

/-- The collected rows are the strings with their NUL. -/
theorem execArgs_eq (h : PassesArgs mem userArgv args) :
    execArgs mem userArgv = args.map (· ++ [0#8]) := by
  have hslot : argvSlot userArgv 0 = userArgv.toNat := by
    unfold argvSlot
    simp
  unfold execArgs
  by_cases hptr : isUserPointer userArgv.toNat 4 = true
  · rw [if_pos hptr, collectArgs_eq h execMaxArgs (Nat.zero_le _) (Nat.add_zero _), List.drop_zero]
  · rw [if_neg hptr]
    rcases Nat.eq_zero_or_pos args.length with hempty | hpos
    · rw [List.eq_nil_of_length_eq_zero hempty]
      rfl
    · have hfirst := (h.slot 0 hpos).1
      rw [hslot] at hfirst
      exact absurd hfirst hptr

end Collect

section Build

variable {mem : Bytes} {args : List (List (BitVec 8))}

/-- The bytes of the copies. -/
def argBytes (args : List (List (BitVec 8))) : Nat := (args.map fun arg => arg.length + 1).sum

theorem totalArgsSize_eq (hnul : ∀ arg ∈ args, 0#8 ∉ arg) :
    totalArgsSize (args.map (· ++ [0#8])) = argBytes args + (args.length + 1) * 4 + 4 + 64 := by
  unfold totalArgsSize argBytes
  rw [List.map_map, List.length_map, List.map_congr_left]
  intro arg harg
  rw [Function.comp_apply, kStrlen_row (hnul arg harg)]

/-- The copies, from the new stack pointer up to the old one. -/
structure Pushed (mem : Bytes) (low high : Nat) (args : List (List (BitVec 8)))
    (ptrs : List Nat) : Prop where
  size : low + argBytes args = high
  copies : List.Forall₂ (fun p arg => low ≤ p ∧ p + (arg.length + 1) ≤ high ∧
    BytesAt mem p (arg ++ [0#8])) ptrs args
  apart : (ptrs.zip args).Pairwise fun x y => x.1 + (x.2.length + 1) ≤ y.1

/-- The loop over the strings. -/
theorem pushArgs_spec (mem : Bytes) (stackPtr : Nat) (hnul : ∀ arg ∈ args, 0#8 ∉ arg)
    (hroom : argBytes args ≤ stackPtr) :
    ∃ mem' low ptrs, pushArgs mem stackPtr (args.map (· ++ [0#8])) = (mem', low, ptrs) ∧
      Pushed mem' low stackPtr args ptrs := by
  induction args with
  | nil => exact ⟨mem, stackPtr, [], rfl, rfl, .nil, .nil⟩
  | cons arg rest ih =>
    have hsize : argBytes (arg :: rest) = arg.length + 1 + argBytes rest := rfl
    obtain ⟨hfirst, hrest⟩ := List.forall_mem_cons.mp hnul
    obtain ⟨mem₁, low, ptrs, hpush, hpushed⟩ := ih hrest (by omega)
    have hlow := hpushed.size
    have hrow : (arg ++ [0#8]).take (arg.length + 1) = arg ++ [0#8] :=
      List.take_of_length_le (by simp)
    refine ⟨storeBytes mem₁ (low - (arg.length + 1)) (arg ++ [0#8]), low - (arg.length + 1),
      (low - (arg.length + 1)) :: ptrs, ?_, by omega, ?_, ?_⟩
    · rw [List.map_cons, pushArgs, hpush]
      dsimp only
      rw [kStrlen_row hfirst, hrow]
    · refine .cons ⟨le_rfl, by omega, bytesAt_storeBytes _ _ _⟩ (hpushed.copies.imp ?_)
      rintro p s ⟨hp, hhigh, hbytes⟩
      refine ⟨by omega, hhigh, hbytes.congr fun k hk _ => storeBytes_of_outside (Or.inr ?_)⟩
      rw [List.length_append, List.length_singleton]
      omega
    · rw [List.zip_cons_cons, List.pairwise_cons]
      refine ⟨?_, hpushed.apart⟩
      rintro ⟨p, s⟩ hp
      have hle := (List.forall₂_iff_zip.mp hpushed.copies).2 hp
      dsimp only
      omega

theorem clampStackPtr_of_lt {stackPtr : Nat} (h : stackPtr < kernelSpaceStart) :
    clampStackPtr stackPtr = stackPtr :=
  if_neg (Nat.not_le.mpr h)

/-- The layout of the stack. -/
theorem buildStack_spec (mem : Bytes) (hnul : ∀ arg ∈ args, 0#8 ∉ arg)
    (hsize : totalArgsSize (args.map (· ++ [0#8])) ≤ userStackSize - userStackGuardSize) :
    ∃ mem' esp ptrs, buildStack mem (args.map (· ++ [0#8])) = (mem', esp) ∧
      ArgStack mem' esp args ptrs := by
  have htop : userStackVirtTop = 0xBFFFF000 := rfl
  have hstack : userStackSize = 65536 := rfl
  have hguard : userStackGuardSize = 4096 := rfl
  have hkernel : kernelSpaceStart = 0xC0000000 := rfl
  rw [totalArgsSize_eq hnul] at hsize
  obtain ⟨mem₁, low, ptrs, hpush, hpushed⟩ :=
    pushArgs_spec mem userStackVirtTop hnul (by omega)
  have hlow := hpushed.size
  have hlen : ptrs.length = args.length := hpushed.copies.length_eq
  -- the pointers lie below the aligned end of the copies
  obtain ⟨aligned, haligned⟩ : ∃ aligned, aligned = low - low % 4 := ⟨_, rfl⟩
  have hmod : low % 4 < 4 := Nat.mod_lt _ (by decide)
  obtain ⟨row, hrow⟩ : ∃ row, row = aligned - 4 - 4 * (args.length + 1) := ⟨_, rfl⟩
  have hrowLen : (ptrs.map (BitVec.ofNat 32) ++ [0#32]).length = args.length + 1 := by
    rw [List.length_append, List.length_map, hlen, List.length_singleton]
  refine ⟨storeWord (storeRow (storeWord mem₁ (aligned - 4) 0#32) row
    (ptrs.map (BitVec.ofNat 32) ++ [0#32])) (row - 4) (BitVec.ofNat 32 args.length), row - 4, ptrs,
    ?_, by omega, by omega, ?_, ?_, hpushed.apart⟩
  · rw [buildStack, hpush]
    dsimp only
    rw [clampStackPtr_of_lt (by omega), List.length_map, ← haligned, ← hrow,
      clampStackPtr_of_lt (by omega)]
  · rw [List.cons_append]
    refine Holds.push ?_ (by omega) _
    rw [holds_append, hrowLen]
    refine ⟨holds_storeRow _ _ _, ?_, trivial⟩
    have henvp : row + 4 * (args.length + 1) = aligned - 4 := by omega
    rw [henvp, loadWord_storeRow_of_outside (by rw [hrowLen]; omega), loadWord_storeWord]
  · refine hpushed.copies.imp ?_
    rintro p arg ⟨hp, hhigh, hbytes⟩
    refine ⟨by omega, hhigh, hbytes.congr fun k hk _ => ?_⟩
    rw [storeWord_of_outside (by omega), storeRow_of_outside (by rw [hrowLen]; omega),
      storeWord_of_outside (by omega)]

end Build

/-- A load that succeeds has made the stack area. -/
theorem addStackAndHeap_stack {vmas vmas' : List Vma} {ret : Int} {k k' : Kmalloc}
    (h : addStackAndHeap vmas k = (vmas', ret, k')) (hret : ¬ret < 0) :
    (⟨userStackVirtTop - userStackSize, userStackVirtTop, vmaRead ||| vmaWrite⟩ : Vma) ∈ vmas' := by
  unfold addStackAndHeap at h
  rcases hstack : vmaAdd vmas (userStackVirtTop - userStackSize) userStackVirtTop
    (vmaRead ||| vmaWrite) k with ⟨vmas₁, ret₁, k₁⟩
  rw [hstack] at h
  dsimp only at h
  have hcases := vmaAdd_cases vmas (userStackVirtTop - userStackSize) userStackVirtTop
    (vmaRead ||| vmaWrite) k
  rw [hstack] at hcases
  rcases hcases with ⟨-, hneg⟩ | ⟨-, -, hlist, hzero⟩
  · rw [if_pos hneg] at h
    cases h
    exact absurd hneg hret
  · dsimp only at hlist hzero
    rw [if_neg (by omega)] at h
    have hmem : (⟨userStackVirtTop - userStackSize, userStackVirtTop, vmaRead ||| vmaWrite⟩ : Vma) ∈
        vmas₁ := by
      rw [hlist]
      exact mem_vmaInsert.mpr (Or.inl rfl)
    have hheap := vmaAdd_cases vmas₁ userHeapStart userHeapStart (vmaRead ||| vmaWrite) k₁
    rw [h] at hheap
    rcases hheap with ⟨hsame, -⟩ | ⟨-, -, hinsert, -⟩
    · dsimp only at hsame
      rw [hsame]
      exact hmem
    · dsimp only at hinsert
      rw [hinsert]
      exact mem_vmaInsert.mpr (Or.inr hmem)

theorem sysExecMemory_stack {m m' : Machine} {pd newPd : Nat} {vmas vmas' : List Vma}
    {file : VfsFile} {k k' : Kmalloc} {ret : Int}
    (h : sysExecMemory m pd vmas (.ok file) k = some (m', newPd, vmas', ret, k'))
    (hret : ¬ret < 0) :
    (⟨userStackVirtTop - userStackSize, userStackVirtTop, vmaRead ||| vmaWrite⟩ : Vma) ∈ vmas' := by
  unfold sysExecMemory at h
  dsimp only at h
  rcases hcreate : vmmCreateAddressSpace m with ⟨m₁, dir⟩
  rw [hcreate] at h
  cases dir with
  | none =>
    cases h
    exact absurd (by decide) hret
  | some dir =>
    rcases hload : elfLoad file dir m₁ k with ⟨t, status, entry⟩
    simp only [hload] at h
    by_cases hhalt : status = .halted
    · rw [if_pos hhalt] at h
      cases h
    rw [if_neg hhalt] at h
    by_cases hentry : entry = 0
    · rw [if_pos hentry] at h
      cases h
      exact absurd (by decide) hret
    rw [if_neg hentry] at h
    rcases hstack : addStackAndHeap t.vmaHead t.kmallocs with ⟨vmas₁, ret₁, k₁⟩
    rw [hstack] at h
    dsimp only at h
    by_cases hneg : ret₁ < 0
    · rw [if_pos hneg] at h
      cases h
      exact absurd (by decide) hret
    · rw [if_neg hneg] at h
      cases h
      exact addStackAndHeap_stack hstack hneg

/-- `_start` passes the vector on. -/
theorem ArgStack.mainGets {mem : Bytes} {esp : Nat} {args : List (List (BitVec 8))}
    {ptrs : List Nat} (h : ArgStack mem esp args ptrs) (c : Cpu) (hmem : c.mem = mem)
    (hesp : c.esp = BitVec.ofNat 32 esp) (returnAddr : Word) :
    MainGets (crtStart c returnAddr) args ptrs := by
  have htop : userStackVirtTop = 0xBFFFF000 := rfl
  have hstack : userStackSize = 65536 := rfl
  have hbottom := h.bottom
  have hhigh := h.top
  have hlen : ptrs.length = args.length := h.copies.length_eq
  have hto : c.esp.toNat = esp := by
    rw [hesp, BitVec.toNat_ofNat, Nat.mod_eq_of_lt (by omega)]
  subst hmem
  have hargc : loadWord c.mem c.esp.toNat = BitVec.ofNat 32 args.length := hto ▸ h.words.1
  obtain ⟨ws, hws⟩ : ∃ ws : List Word, ws = [c.esp + BitVec.ofNat 32 args.length * 4#32 + 8#32,
    c.esp + 4#32, BitVec.ofNat 32 args.length, returnAddr] := ⟨_, rfl⟩
  have hstart : (crtStart c returnAddr).esp = (ws.foldl Cpu.push c).esp ∧
      (crtStart c returnAddr).mem = (ws.foldl Cpu.push c).mem := by
    unfold crtStart
    rw [hargc, hws]
    exact ⟨rfl, rfl⟩
  have hfit : 4 * ws.length ≤ c.esp.toNat := by
    rw [hws, hto]
    change 16 ≤ esp
    omega
  obtain ⟨hsp, hrow⟩ := foldl_push ws hfit (hto.symm ▸ h.words)
  have hsp : (crtStart c returnAddr).esp.toNat = esp - 16 := by
    rw [hstart.1, hsp, hto, hws]
    rfl
  rw [← hstart.1, ← hstart.2, hsp, hws] at hrow
  obtain ⟨-, hcount, hargv, henvp, -, hptrs⟩ := hrow
  have hargvAddr : (c.esp + 4#32).toNat = esp + 4 := by
    rw [BitVec.toNat_add, hto]
    exact Nat.mod_eq_of_lt (by simp; omega)
  have henvpAddr : (c.esp + BitVec.ofNat 32 args.length * 4#32 + 8#32).toNat =
      esp + 4 + 4 * (args.length + 1) := by
    rw [hesp, ← BitVec.ofNat_mul, ← BitVec.ofNat_add, ← BitVec.ofNat_add, BitVec.toNat_ofNat,
      Nat.mod_eq_of_lt (by omega)]
    omega
  have hptrs : Holds (crtStart c returnAddr).mem (esp + 4)
      (ptrs.map (BitVec.ofNat 32) ++ [0#32] ++ [0#32]) := by
    rwa [show esp - 16 + 4 + 4 + 4 + 4 + 4 = esp + 4 by omega] at hptrs
  obtain ⟨hvector, henv, -⟩ := holds_append.mp hptrs
  rw [List.length_append, List.length_map, hlen, List.length_singleton] at henv
  refine ⟨?_, ?_, ?_, ?_⟩
  · rw [hsp, hcount]
  · rw [hsp, show esp - 16 + 8 = esp - 16 + 4 + 4 by omega, hargv, hargvAddr]
    exact hvector
  · rw [hsp, show esp - 16 + 12 = esp - 16 + 4 + 4 + 4 by omega, henvp, henvpAddr]
    exact henv
  · refine h.copies.imp ?_
    rintro p arg ⟨hp, -, hbytes⟩
    refine hbytes.congr fun k hk _ => ?_
    rw [hstart.2]
    exact foldl_push_above ws hfit (by omega)

/-- What is above the stack pointer of a new image, and what `main` gets. -/
theorem exec_arg_stack {mem image newMem : Bytes} {userArgv : Word}
    {args : List (List (BitVec 8))} (hargs : PassesArgs mem userArgv args) {m : Machine} {pd : Nat}
    {vmas : List Vma} {file : Except Int VfsFile} {k : Kmalloc} {r : ExecOutcome} {esp : Nat}
    (hexec : sysExecHandler mem userArgv m pd vmas file image k = some r)
    (hstack : r.stack = some (newMem, esp)) :
    r.ret = 0 ∧
      ⟨userStackVirtTop - userStackSize, userStackVirtTop, vmaRead ||| vmaWrite⟩ ∈ r.vmaHead ∧
      ∃ ptrs, ArgStack newMem esp args ptrs ∧
        ∀ c returnAddr, c.mem = newMem → c.esp = BitVec.ofNat 32 esp →
          MainGets (crtStart c returnAddr) args ptrs := by
  have hnul : ∀ arg ∈ args, 0#8 ∉ arg := by
    intro arg harg
    obtain ⟨i, hi, rfl⟩ := List.getElem_of_mem harg
    exact (hargs.slot i hi).2.no_nul
  unfold sysExecHandler at hexec
  rcases hk : k.next with ⟨ok, k₁⟩
  rw [hk, execArgs_eq hargs] at hexec
  cases ok with
  | false =>
    cases hexec
    cases hstack
  | true =>
    dsimp only at hexec
    by_cases hsize : userStackSize - userStackGuardSize < totalArgsSize (args.map (· ++ [0#8]))
    · rw [if_pos hsize] at hexec
      cases hexec
      cases hstack
    rw [if_neg hsize] at hexec
    cases file with
    | error e =>
      cases hexec
      cases hstack
    | ok file =>
      dsimp only at hexec
      rcases hmemory : sysExecMemory m pd vmas (.ok file) k₁ with _ | ⟨m', newPd, vmas', ret, k'⟩
      · rw [hmemory] at hexec
        cases hexec
      rw [hmemory] at hexec
      dsimp only at hexec
      by_cases hret : ret < 0
      · rw [if_pos hret] at hexec
        cases hexec
        cases hstack
      rw [if_neg hret] at hexec
      cases hexec
      obtain ⟨mem', esp', ptrs, hbuild, hlayout⟩ :=
        buildStack_spec image hnul (Nat.not_lt.mp hsize)
      dsimp only at hstack
      rw [hbuild] at hstack
      cases hstack
      exact ⟨rfl, sysExecMemory_stack hmemory hret, ptrs, hlayout,
        fun c returnAddr hmem hesp => hlayout.mainGets c hmem hesp returnAddr⟩

/-- `argv` at `0x2000` holds one pointer, to a string of one byte. -/
def oneArg : Bytes := fun k => if k = 0x2001 then 0x30#8 else if k = 0x3000 then 0x61#8 else 0#8

theorem oneArg_argAt : ArgAt oneArg (loadWord oneArg (argvSlot 0x2000#32 0)).toNat [0x61#8] := by
  refine ⟨by decide, ⟨fun j hj => ?_, by decide, by decide⟩, by decide⟩
  obtain rfl : j = 0 := Nat.lt_one_iff.mp hj
  decide

theorem oneArg_passed : PassesArgs oneArg 0x2000#32 [[0x61#8]] where
  atMost := by decide
  short := by decide
  slot i hi := by
    obtain rfl : i = 0 := Nat.lt_one_iff.mp hi
    exact ⟨by decide, oneArg_argAt⟩
  stop _ := Or.inr (by decide)

theorem exec_arg_stack_one : ∃ r newMem esp ptrs,
    sysExecHandler oneArg 0x2000#32 smallMachine 4 [] (.ok (smallFile 6)) (fun _ => 0#8) [] =
      some r ∧ r.stack = some (newMem, esp) ∧ ArgStack newMem esp [[0x61#8]] ptrs := by
  have hrun : (sysExecHandler oneArg 0x2000#32 smallMachine 4 [] (.ok (smallFile 6))
      (fun _ => 0#8) []).any (fun r => r.stack.isSome) = true := by decide +kernel
  obtain ⟨r, hexec, hsome⟩ := (Option.any_eq_true _ _).mp hrun
  obtain ⟨⟨newMem, esp⟩, hstack⟩ := Option.isSome_iff_exists.mp hsome
  obtain ⟨-, -, ptrs, hlayout, -⟩ := exec_arg_stack oneArg_passed hexec hstack
  exact ⟨r, newMem, esp, ptrs, hexec, hstack, hlayout⟩

end EnclaveOS
