import EnclaveOS.Irq.IrqDiscipline

/-!
# IrqRuns - the operations one after the other

Any sequence of the operations, each entered with the interrupt flag as the one before it left it,
changes the heap, the pages and the files as the operations without the flag do.
-/

namespace EnclaveOS

open Irq

/-- An operation on the heap, the page allocator and the file system alone. -/
def IrqState.plain (s : IrqState) : IrqOp → Option IrqState
  | .kmalloc size => some { s with heap := (kmalloc s.heap size).1 }
  | .kfree ptr => (kfree s.heap ptr).map fun heap => { s with heap := heap }
  | .pmmAllocPage => some { s with pages := (pmmAllocPage s.pages).1 }
  | .pmmFreePage physAddr => some { s with pages := pmmFreePage s.pages physAddr }
  | .pmmIncRef physAddr => some { s with pages := pmmIncRef s.pages physAddr }
  | .pmmDecRef physAddr => some { s with pages := pmmDecRef s.pages physAddr }
  | .vfsCloseFd task fd => (vfsCloseFd s.vfs task fd).map fun r => { s with vfs := r.1 }
  | .sysOpen task walk target flags alloc =>
    (sysOpen (s.vfs.walked walk) task target.toLookup flags alloc).map fun r =>
      { s with vfs := r.1 }
  | .sysUnlink walk (.unlinked n) =>
    (sysUnlink (s.vfs.walked walk) n).map fun vfs => { s with vfs := vfs }
  | .sysUnlink walk _ => some { s with vfs := s.vfs.walked walk }
  | .devfsConsoleOpen => some { s with vfs := s.vfs.devfsConsoleOpen.1 }
  | .devfsConsoleClose => some { s with vfs := s.vfs.devfsConsoleClose }
  | .forkFds parent child =>
    ((List.finRange 256).foldlM (inheritFd parent child) s.vfs).map fun vfs => { s with vfs := vfs }

section

variable {α : Type} {g : IrqState → Option IrqState}

/-- Code on a part of the state has its effect on that part. -/
theorem zoom_erases {τ : Type} {p : Irq SharedObject τ α} {f : τ → Option (τ × α)}
    (h : Erases p f) {part : IrqState → τ} {put : τ → IrqState → IrqState}
    (hg : ∀ s, g s = (f (part s)).map fun r => put r.1 s) :
    Erases (zoom part put p) fun s => (g s).map fun s => (s, ()) := by
  intro on s
  dsimp only
  rw [hg, ← h on (part s), Option.map_map, Option.map_map]
  simp only [zoom, Option.map_map]
  rfl

theorem onHeap_erases {p : Irq SharedObject HeapState α} {f : HeapState → Option (HeapState × α)}
    (h : Erases p f) (hg : ∀ s, g s = (f s.heap).map fun r => { s with heap := r.1 }) :
    Erases (onHeap p) fun s => (g s).map fun s => (s, ()) :=
  zoom_erases h hg

theorem onPages_erases {p : Irq SharedObject Pmm α} {f : Pmm → Option (Pmm × α)}
    (h : Erases p f) (hg : ∀ s, g s = (f s.pages).map fun r => { s with pages := r.1 }) :
    Erases (onPages p) fun s => (g s).map fun s => (s, ()) :=
  zoom_erases h hg

theorem onVfs_erases {p : Irq SharedObject VfsState α} {f : VfsState → Option (VfsState × α)}
    (h : Erases p f) (hg : ∀ s, g s = (f s.vfs).map fun r => { s with vfs := r.1 }) :
    Erases (onVfs p) fun s => (g s).map fun s => (s, ()) :=
  zoom_erases h hg

end

theorem IrqOp.code_erases (op : IrqOp) :
    Erases op.code fun s => (s.plain op).map fun s => (s, ()) := by
  cases op with
  | kmalloc size => exact onHeap_erases (kmallocIrq_erases size) fun _ => rfl
  | kfree ptr => exact onHeap_erases (kfreeIrq_erases ptr) fun _ => by rw [Option.map_map]; rfl
  | pmmAllocPage => exact onPages_erases pmmAllocPageIrq_erases fun _ => rfl
  | pmmFreePage physAddr => exact onPages_erases (pmmFreePageIrq_erases physAddr) fun _ => rfl
  | pmmIncRef physAddr => exact onPages_erases (pmmIncRefIrq_erases physAddr) fun _ => rfl
  | pmmDecRef physAddr => exact onPages_erases (pmmDecRefIrq_erases physAddr) fun _ => rfl
  | vfsCloseFd task fd => exact onVfs_erases (vfsCloseFdIrq_erases task fd) fun _ => rfl
  | sysOpen task walk target flags alloc =>
    exact onVfs_erases (sysOpenIrq_erases task walk target flags alloc) fun _ => rfl
  | sysUnlink walk target =>
    -- on the other targets nothing happens between cli and sti
    have hidle : ∀ e, Erases (unlinkTargetIrq target) (fun s => some (s, e)) →
        Erases (onVfs (sysUnlinkIrq walk target)) fun s =>
          (some { s with vfs := s.vfs.walked walk }).map fun s => (s, ()) :=
      fun _ h => onVfs_erases ((walkFat_erases walk).bind fun _ => h) fun _ => rfl
    cases target with
    | unlinked n =>
      exact onVfs_erases (sysUnlinkIrq_erases walk n) fun _ => by rw [Option.map_map]; rfl
    | failed errno => exact hidle (-errno) fun _ _ => rfl
    | missing => exact hidle (-2) fun _ _ => rfl
    | refused errno => exact hidle (-errno) fun _ _ => rfl
  | devfsConsoleOpen =>
    have hopen : Erases devfsConsoleOpenIrq fun s =>
        some (s.devfsConsoleOpen.1, if 0 < s.consoleOpenCount then -1 else 0) := by
      intro on s
      rw [devfsConsoleOpenIrq_run]
      rfl
    exact onVfs_erases hopen fun _ => rfl
  | devfsConsoleClose =>
    have hclose : Erases devfsConsoleCloseIrq fun s => some (s.devfsConsoleClose, ()) := by
      intro on s
      rw [devfsConsoleCloseIrq_run]
      rfl
    exact onVfs_erases hclose fun _ => rfl
  | forkFds parent child =>
    exact onVfs_erases (forkFdsIrq_erases parent child) fun _ => by rw [Option.map_map]; rfl

/-- The operations one after the other. -/
def callsCode : List IrqOp → Irq SharedObject IrqState Unit
  | [] => pure ()
  | op :: ops => do
    op.code
    callsCode ops

/-- Whatever the flag is at the start, the calls leave the heap, the pages and the files that the
operations without the flag leave, and get stuck when these do. -/
theorem irq_run_erases (ops : List IrqOp) (on : Bool) (s : IrqState) :
    ((callsCode ops).run on s).map (fun r => r.state) = ops.foldlM IrqState.plain s := by
  have hcalls : Erases (callsCode ops) fun s =>
      (ops.foldlM IrqState.plain s).map fun s => (s, ()) := by
    induction ops with
    | nil => exact erases_pure ()
    | cons op ops ih =>
      intro on s
      have hbind := op.code_erases.bind (fun _ => ih) on s
      dsimp only at hbind ⊢
      rw [callsCode, hbind, List.foldlM_cons, Option.bind_eq_bind]
      cases s.plain op <;> rfl
  have hstate := congrArg (Option.map Prod.fst) (hcalls on s)
  simpa [Option.map_map, Function.comp_def] using hstate

end EnclaveOS
