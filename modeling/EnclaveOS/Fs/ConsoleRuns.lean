import EnclaveOS.Fs.OpenFileRuns

/-!
# ConsoleRuns - the exclusive console

The driver of `/dev/console` counts an open in `devfs_console_open`, and
`vfs_close_fd` reaches `devfs_console_close` only for a node that was
unlinked.  The console is never unlinked, so its count never falls: it is right
while an open file holds the console, and never after the last one went away.
-/

namespace EnclaveOS

/-- The descriptor `x` refers to an open file of `console`. -/
def VfsState.Holds (s : VfsState) (console : Ptr) (x : TaskId × Fd) : Prop :=
  ∃ of file, s.fdTable x = some of ∧ s.files of = some file ∧ file.node = console

/-- The one console node, which path resolution can open. -/
structure ConsoleDevice (console : Ptr) (s : VfsState) : Prop where
  device : ∀ n node, s.nodes n = some node → (node.driver = .console ↔ n = console)
  present : ∃ node, s.nodes console = some node ∧ node.flags &&& fsSystem = 0

/-- The count of the driver is 1 while a descriptor holds the console, and else 0. -/
structure ConsoleInv (console : Ptr) (s : VfsState) : Prop where
  vfs : VfsInv s
  node : ConsoleDevice console s
  count : (∃ y, s.Holds console y) ∧ s.consoleOpenCount = 1 ∨
    (∀ y, ¬s.Holds console y) ∧ s.consoleOpenCount = 0

namespace ConsoleDevice

variable {console : Ptr} {s s' : VfsState}

theorem setRefCount (h : ConsoleDevice console s) {n : Ptr} {node : VfsNode} {count : Nat}
    (hnode : s.nodes n = some node)
    (hnodes : s'.nodes = Function.update s.nodes n (some { node with refCount := count })) :
    ConsoleDevice console s' := by
  refine ⟨fun m nd hm => ?_, ?_⟩
  · rw [hnodes, Function.update_apply] at hm
    split_ifs at hm with hmn
    · cases hm
      rw [hmn]
      exact h.device n node hnode
    · exact h.device m nd hm
  · obtain ⟨nd, hnd, hflags⟩ := h.present
    by_cases hn : console = n
    · rw [hnodes, hn, Function.update_self]
      rw [hn, hnode] at hnd
      cases hnd
      exact ⟨_, rfl, hflags⟩
    · refine ⟨nd, ?_, hflags⟩
      rw [hnodes, Function.update_of_ne hn]
      exact hnd

theorem sameObjects (h : ConsoleDevice console s) (hsame : SameObjects s s') :
    ConsoleDevice console s' := by
  refine ⟨fun n node' hnode' => ?_, ?_⟩
  · obtain ⟨node, hnode, hfix⟩ := hsame.node hnode'
    rw [(VfsNode.fixed_eq hfix).2.1]
    exact h.device n node hnode
  · obtain ⟨node, hnode, hflags⟩ := h.present
    have hn := hsame.nodes console
    rw [hnode] at hn
    obtain ⟨node', hnode', hfix⟩ := Option.map_eq_some_iff.mp hn
    exact ⟨node', hnode', by rw [(VfsNode.fixed_eq hfix).1]; exact hflags⟩

theorem addNode (h : ConsoleDevice console s) {n : Ptr} {driver : NodeDriver}
    {privateData : Option Ptr} (hmakes : s.Makes n driver privateData) (size flags : Nat) :
    ConsoleDevice console (s.addNode n size flags driver privateData) := by
  obtain ⟨hfree, hdriver, -⟩ := hmakes
  obtain ⟨nd, hnd, hflags⟩ := h.present
  have hne : console ≠ n := by
    rintro rfl
    simp [hfree] at hnd
  refine ⟨fun m node hm => ?_, nd, ?_, hflags⟩
  · dsimp only [VfsState.addNode, VfsState.setNode] at hm
    rw [Function.update_apply] at hm
    split_ifs at hm with hmn
    · cases hm
      rw [hmn]
      exact iff_of_false hdriver hne.symm
    · exact h.device m node hm
  · dsimp only [VfsState.addNode, VfsState.setNode]
    rw [Function.update_of_ne hne]
    exact hnd

end ConsoleDevice

section Step

variable {console : Ptr} {s s' : VfsState}

/-- Closing a descriptor never reaches the driver: a node of the tree is kept. -/
theorem VfsInv.closes_console (h : VfsInv s) {x : TaskId × Fd} (hcloses : Closes s x s')
    (hdev : ConsoleDevice console s) :
    s'.consoleOpenCount = s.consoleOpenCount ∧ ConsoleDevice console s' := by
  cases hcloses with
  | shared => exact ⟨rfl, hdev.device, hdev.present⟩
  | @last of file node s₁ hslot hfile hone hnode hput =>
    cases hput with
    | keep => exact ⟨rfl, hdev.setRefCount hnode rfl⟩
    | release _ horphan => simp [h.linked _ node hnode] at horphan

/-- Closing a descriptor leaves what the others hold. -/
theorem Closes.holds_iff {x y : TaskId × Fd} (hcloses : Closes s x s') (hy : y ≠ x) :
    s'.Holds console y ↔ s.Holds console y := by
  have htable : s'.fdTable y = s.fdTable y := by
    rw [hcloses.table, Function.update_of_ne hy]
  unfold VfsState.Holds
  rw [htable]
  cases hcloses with
  | @shared of file hslot hfile hmany =>
    simp only [VfsState.setFile_files]
    constructor
    · rintro ⟨a, fa, ha, hfa, hn⟩
      rw [Function.update_apply] at hfa
      split_ifs at hfa with hao
      · cases hfa
        exact ⟨a, file, ha, hao ▸ hfile, hn⟩
      · exact ⟨a, fa, ha, hfa, hn⟩
    · rintro ⟨a, fa, ha, hfa, hn⟩
      by_cases hao : a = of
      · rw [hao, hfile] at hfa
        cases hfa
        exact ⟨a, { file with refCount := s.refs of - 1 }, ha,
          by rw [hao, Function.update_self], hn⟩
      · exact ⟨a, fa, ha, by rw [Function.update_of_ne hao]; exact hfa, hn⟩
  | @last of file node s₁ hslot hfile hone hnode hput =>
    -- the last descriptor of the file was closed, so this one has another file
    have hne : ∀ a, s.fdTable y = some a → a ≠ of := by
      rintro a ha rfl
      exact hy (RefCount.site_unique hone.le (mem_descriptors y) (mem_descriptors x) ha hslot)
    simp only [VfsState.setFile_files, hput.frame.2.2]
    constructor
    · rintro ⟨a, fa, ha, hfa, hn⟩
      rw [Function.update_of_ne (hne a ha)] at hfa
      exact ⟨a, fa, ha, hfa, hn⟩
    · rintro ⟨a, fa, ha, hfa, hn⟩
      exact ⟨a, fa, ha, by rw [Function.update_of_ne (hne a ha)]; exact hfa, hn⟩

theorem Closes.not_holds {x : TaskId × Fd} (hcloses : Closes s x s') : ¬s'.Holds console x := by
  rintro ⟨a, fa, ha, -⟩
  rw [hcloses.table, Function.update_self] at ha
  cases ha

/-- A copied descriptor holds the console only if another one did. -/
theorem Shares.exists_holds {x : TaskId × Fd} (hshares : Shares s x s') (console : Ptr)
    (hinv : FdInv s) :
    (∃ y, s'.Holds console y) ↔ ∃ y, s.Holds console y := by
  cases hshares with
  | @intro of file node hfree hactive hfile hnode =>
    constructor
    · rintro ⟨y, a, fa, ha, hfa, hn⟩
      dsimp only [VfsState.setSlot, VfsState.setNode, VfsState.setFile] at ha hfa
      rw [Function.update_apply] at ha hfa
      have hold : ∃ fa', s.files a = some fa' ∧ fa'.node = console := by
        split_ifs at hfa with hao
        · cases hfa
          exact ⟨file, hao ▸ hfile, hn⟩
        · exact ⟨fa, hfa, hn⟩
      obtain ⟨fa', hfa', hn'⟩ := hold
      have hpos : 0 < s.refs a := (hinv.live a).mp (by rw [hfa']; rfl)
      obtain ⟨z, -, hz⟩ := RefCount.refs_pos_iff.mp hpos
      exact ⟨z, a, fa', hz, hfa', hn'⟩
    · rintro ⟨y, a, fa, ha, hfa, hn⟩
      have hyx : y ≠ x := by
        rintro rfl
        rw [hfree] at ha
        cases ha
      refine ⟨y, a, ?_⟩
      dsimp only [VfsState.setSlot, VfsState.setNode, VfsState.setFile]
      rw [Function.update_of_ne hyx, Function.update_apply]
      split_ifs with hao
      · rw [hao, hfile] at hfa
        cases hfa
        exact ⟨_, ha, rfl, hn⟩
      · exact ⟨fa, ha, hfa, hn⟩

theorem SameObjects.holds_iff (hsame : SameObjects s s') (y : TaskId × Fd) :
    s'.Holds console y ↔ s.Holds console y := by
  unfold VfsState.Holds
  rw [hsame.table, hsame.files]

end Step

/-- The descriptor `y` keeps holding the console, or nobody ever held it. -/
def KeptBy (console : Ptr) (y : Option (TaskId × Fd)) (s : VfsState) : Prop :=
  VfsInv s ∧ ConsoleDevice console s ∧
    match y with
    | some y => s.Holds console y ∧ s.consoleOpenCount = 1
    | none => (∀ y, ¬s.Holds console y) ∧ s.consoleOpenCount = 0

namespace KeptBy

variable {console : Ptr} {y : Option (TaskId × Fd)} {s s' : VfsState}

theorem inv (h : KeptBy console y s) : ConsoleInv console s := by
  obtain ⟨hvfs, hdev, hcount⟩ := h
  refine ⟨hvfs, hdev, ?_⟩
  cases y with
  | some y => exact Or.inl ⟨⟨y, hcount.1⟩, hcount.2⟩
  | none => exact Or.inr hcount

theorem closes (h : KeptBy console y s) {x : TaskId × Fd} (hx : y ≠ some x)
    (hcloses : Closes s x s') : KeptBy console y s' := by
  obtain ⟨hvfs, hdev, hcount⟩ := h
  obtain ⟨hconsole, hdev'⟩ := hvfs.closes_console hcloses hdev
  refine ⟨hvfs.closes hcloses, hdev', ?_⟩
  cases y with
  | some y =>
    rw [hconsole]
    exact ⟨(hcloses.holds_iff fun heq => hx (congrArg some heq)).mpr hcount.1, hcount.2⟩
  | none =>
    rw [hconsole]
    refine ⟨fun z => ?_, hcount.2⟩
    by_cases hz : z = x
    · rw [hz]
      exact hcloses.not_holds
    · rw [hcloses.holds_iff hz]
      exact hcount.1 z

theorem retire (h : KeptBy console y s) {task : TaskId}
    (hempty : ∀ i, s.fdTable (task, i) = none) (status : FdStatus) :
    KeptBy console y (s.setStatus task status) := by
  obtain ⟨hvfs, hdev, hcount⟩ := h
  exact ⟨hvfs.retire hempty status, ⟨hdev.device, hdev.present⟩, hcount⟩

theorem closeStable {T : TaskId → Prop} (hT : ∀ x, y = some x → ¬T x.1) :
    CloseStable T (KeptBy console y) where
  inv _ h := h.1.fd
  live _ h := h.1.live
  closes _ x _ hx h hcloses := h.closes (fun heq => hT x heq hx) hcloses
  retire _ _ status h hempty := h.retire hempty status

end KeptBy

/-- The operation may close the descriptor `x`. -/
def FdOp.MayClose (s : VfsState) (x : TaskId × Fd) : FdOp → Prop
  | .close task fd => x.1 = task ∧ fdIndex fd = some x.2
  | .dup2 task oldFd newFd =>
    x.1 = task ∧ fdIndex newFd = some x.2 ∧ fdIndex oldFd ≠ fdIndex newFd ∧
      ((fdIndex oldFd).bind fun i => s.fdTable (task, i)) ≠ none
  | .exit task victims _ => x.1 = task ∨ x.1 ∈ victims
  | _ => False

/-- The operation does not close the last descriptor that holds the console, and when
it opens a console that is not busy it has memory and a free descriptor. -/
def FdOp.KeepsConsole (console : Ptr) (s : VfsState) (op : FdOp) : Prop :=
  ((∃ y, s.Holds console y ∧ ¬op.MayClose s y) ∨ ∀ y, ¬s.Holds console y) ∧
    ∀ task flags alloc, op = .openFile task (.found console) flags alloc →
      s.consoleOpenCount = 0 → alloc ≠ none ∧ s.freeFd task ≠ none

namespace ConsoleInv

variable {console : Ptr} {s s' : VfsState}

/-- A descriptor that the operation does not close, if the console is held. -/
theorem kept (h : ConsoleInv console s) {op : FdOp} (hop : op.KeepsConsole console s) :
    ∃ y, KeptBy console y s ∧ ∀ x, y = some x → ¬op.MayClose s x := by
  obtain ⟨⟨y, hy, hclose⟩ | hnone, -⟩ := hop
  · refine ⟨some y, ⟨h.vfs, h.node, hy, ?_⟩, ?_⟩
    · obtain ⟨-, hone⟩ | ⟨hnone, -⟩ := h.count
      · exact hone
      · exact absurd hy (hnone y)
    · rintro x ⟨⟩
      exact hclose
  · refine ⟨none, ⟨h.vfs, h.node, hnone, ?_⟩, by simp⟩
    obtain ⟨⟨y, hy⟩, -⟩ | ⟨-, hzero⟩ := h.count
    · exact absurd hy (hnone y)
    · exact hzero

theorem shares (h : ConsoleInv console s) {x : TaskId × Fd} (hshares : Shares s x s') :
    ConsoleInv console s' := by
  have hex := hshares.exists_holds console h.vfs.fd
  have hvfs := h.vfs.shares hshares
  refine ⟨hvfs, ?_, ?_⟩
  · cases hshares with
    | intro _ _ _ hnode => exact h.node.setRefCount hnode rfl
  · have hsame : s'.consoleOpenCount = s.consoleOpenCount := by
      cases hshares
      rfl
    rw [hsame, hex, ← not_exists, hex, not_exists]
    exact h.count

theorem retire (h : ConsoleInv console s) {task : TaskId}
    (hempty : ∀ i, s.fdTable (task, i) = none) (status : FdStatus) :
    ConsoleInv console (s.setStatus task status) :=
  ⟨h.vfs.retire hempty status, ⟨h.node.device, h.node.present⟩, h.count⟩

theorem addNode (h : ConsoleInv console s) {n : Ptr} {driver : NodeDriver}
    {privateData : Option Ptr} (hmakes : s.Makes n driver privateData) (size flags : Nat) :
    ConsoleInv console (s.addNode n size flags driver privateData) :=
  ⟨h.vfs.addNode hmakes size flags, h.node.addNode hmakes size flags, h.count⟩

/-- Opening a node: the driver counts the console, and an open file then holds it. -/
theorem opens (h : ConsoleInv console s) {task : TaskId} {n : Ptr} {alloc : Option Ptr}
    (hactive : s.status task = .active) (hfresh : ∀ of, alloc = some of → s.files of = none)
    (hlack : n = console → s.consoleOpenCount = 0 → alloc ≠ none ∧ s.freeFd task ≠ none)
    (hopens : Opens s task n alloc s') : ConsoleInv console s' := by
  have hvfs := h.vfs.opens hactive hfresh hopens
  cases hopens with
  | refused => exact h
  | @failed _ node hnode hmissing hsame hfree hcount =>
    have hn : n ≠ console := by
      intro hn
      obtain ⟨halloc, hfd⟩ := hlack hn (hfree ((h.node.device n node hnode).mpr hn))
      exact hmissing.elim halloc hfd
    rw [if_neg fun hdriver => hn ((h.node.device n node hnode).mp hdriver), Nat.add_zero] at hcount
    refine ⟨hvfs, h.node.sameObjects hsame, ?_⟩
    simp only [hcount, hsame.holds_iff]
    exact h.count
  | @opened s₁ node node₁ of i file hnode halloc hslot hsame hfree hcount hnode₁ hfile =>
    refine ⟨hvfs, (h.node.sameObjects hsame).setRefCount hnode₁ rfl, ?_⟩
    have hnone : s₁.files of = none := by
      rw [hsame.files]
      exact hfresh of halloc
    have hslot₁ : s₁.fdTable (task, i) = none := by
      rw [hsame.table]
      exact hslot
    -- the other descriptors refer to other files
    have hother : ∀ y, y ≠ (task, i) → ((((s₁.setNode n (some { node₁ with
        refCount := succ32 node₁.refCount })).setFile of (some file)).setSlot (task, i)
        (some of)).Holds console y ↔ s.Holds console y) := by
      intro y hy
      rw [← hsame.holds_iff y]
      unfold VfsState.Holds
      dsimp only [VfsState.setSlot, VfsState.setNode, VfsState.setFile]
      rw [Function.update_of_ne hy]
      constructor
      · rintro ⟨a, fa, ha, hfa, hn⟩
        have hao : a ≠ of := by
          rintro rfl
          have hlive := (h.vfs.sameObjects hsame).fd.file_of_slot ha
          obtain ⟨-, fa', hfa', -⟩ := hlive
          rw [hnone] at hfa'
          cases hfa'
        rw [Function.update_of_ne hao] at hfa
        exact ⟨a, fa, ha, hfa, hn⟩
      · rintro ⟨a, fa, ha, hfa, hn⟩
        have hao : a ≠ of := by
          rintro rfl
          rw [hnone] at hfa
          cases hfa
        exact ⟨a, fa, ha, by rw [Function.update_of_ne hao]; exact hfa, hn⟩
    have hself : (((s₁.setNode n (some { node₁ with
        refCount := succ32 node₁.refCount })).setFile of (some file)).setSlot (task, i)
        (some of)).Holds console (task, i) ↔ n = console := by
      unfold VfsState.Holds
      dsimp only [VfsState.setSlot, VfsState.setNode, VfsState.setFile]
      rw [Function.update_self]
      constructor
      · rintro ⟨a, fa, ha, hfa, hn⟩
        cases ha
        rw [Function.update_self] at hfa
        cases hfa
        rw [← hfile.1]
        exact hn
      · intro hn
        exact ⟨of, file, rfl, Function.update_self _ _ _, hfile.1.trans hn⟩
    by_cases hn : n = console
    · have hdriver := (h.node.device n node hnode).mpr hn
      rw [if_pos hdriver, hfree hdriver] at hcount
      exact Or.inl ⟨⟨(task, i), hself.mpr hn⟩, hcount⟩
    · have hdriver : node.driver ≠ .console :=
        fun hdriver => hn ((h.node.device n node hnode).mp hdriver)
      rw [if_neg hdriver, Nat.add_zero] at hcount
      obtain ⟨⟨y, hy⟩, hone⟩ | ⟨hno, hzero⟩ := h.count
      · refine Or.inl ⟨⟨y, (hother y ?_).mpr hy⟩, hcount.trans hone⟩
        rintro rfl
        obtain ⟨a, fa, ha, -⟩ := hy
        rw [hslot] at ha
        cases ha
      · refine Or.inr ⟨fun y => ?_, hcount.trans hzero⟩
        by_cases hy : y = (task, i)
        · rw [hy, hself]
          exact hn
        · rw [hother y hy]
          exact hno y

theorem booted (h : s.Booted console) : ConsoleInv console s where
  vfs := .booted h
  node := ⟨h.device, h.present⟩
  count := by
    refine Or.inr ⟨fun y => ?_, h.free⟩
    rintro ⟨a, fa, ha, -⟩
    rw [h.table y] at ha
    cases ha

theorem sysOpen (h : ConsoleInv console s) {task : TaskId} {lookup : Lookup} {alloc : Option Ptr}
    (flags : Nat) (hactive : s.status task = .active) (hlookup : lookup.Possible s)
    (hfresh : ∀ of, alloc = some of → s.files of = none)
    (hlack : lookup = .found console → s.consoleOpenCount = 0 →
      alloc ≠ none ∧ s.freeFd task ≠ none) :
    ∃ s' r, sysOpen s task lookup flags alloc = some (s', r) ∧ ConsoleInv console s' := by
  obtain ⟨r, hres⟩ | ⟨n, s', r, hfound, hres, hopens⟩ |
    ⟨n, _, _, _, _, s', r, hmakes, hres, hopens⟩ := sysOpen_spec task flags alloc hlookup
  · exact ⟨s, r, hres, h⟩
  · exact ⟨s', r, hres, h.opens hactive hfresh (fun hn => hlack (hn ▸ hfound)) hopens⟩
  · have hn : n ≠ console := by
      rintro rfl
      obtain ⟨nd, hnd, -⟩ := h.node.present
      rw [hmakes.1] at hnd
      cases hnd
    exact ⟨s', r, hres, (h.addNode hmakes _ _).opens hactive hfresh (fun heq => absurd heq hn)
      hopens⟩

theorem taskFork (h : ConsoleInv console s) {parent child : TaskId}
    (hdead : s.status child = .dead) :
    ∃ s', taskFork s parent child = some s' ∧ ConsoleInv console s' := by
  have hempty := h.vfs.fd.closed child (by simp [hdead])
  unfold EnclaveOS.taskFork
  rw [newTask_eq h.vfs.fd hdead]
  exact foldlM_inheritFd parent child (fun _ h => h.vfs.fd) (fun _ h => h.vfs.live)
    (fun _ _ _ h hsh _ => h.shares hsh) (List.finRange 256) (List.nodup_finRange 256)
    (h.retire hempty .active) (Function.update_self _ _ _) fun i _ => hempty i

/-- A step that keeps the console keeps the count. -/
theorem step (h : ConsoleInv console s) {op : FdOp} (hop : op.KeepsTree s)
    (hkeep : op.KeepsConsole console s) : ∃ s', op.step s = some s' ∧ ConsoleInv console s' := by
  obtain ⟨y, hy, hopen⟩ := h.kept hkeep
  cases op with
  | create task =>
    refine ⟨_, rfl, ?_⟩
    rw [newTask_eq h.vfs.fd hop.1]
    exact h.retire (h.vfs.fd.closed task (by
      simp [show s.status task = .dead from hop.1])) .active
  | mknod n size flags driver privateData => exact ⟨_, rfl, h.addNode hop.1 size flags⟩
  | openFile task lookup flags alloc =>
    obtain ⟨s', r, hres, h'⟩ := h.sysOpen flags hop.1.1 hop.1.2.1 hop.1.2.2
      fun hlookup => hkeep.2 task flags alloc (hlookup ▸ rfl)
    exact ⟨s', by rw [FdOp.step, hres]; rfl, h'⟩
  | close task fd =>
    obtain ⟨-, hres⟩ | ⟨i, s', hi, hres, hcloses⟩ := vfsCloseFd_spec h.vfs.fd h.vfs.live task fd
    · exact ⟨s, by rw [FdOp.step, hres]; rfl, h⟩
    · refine ⟨s', by rw [FdOp.step, hres]; rfl, (hy.closes (fun heq => ?_) hcloses).inv⟩
      exact hopen _ heq ⟨rfl, hi⟩
  | dup task oldFd =>
    obtain ⟨-, r, hres⟩ | ⟨-, -, j, s', r, hres, hshares⟩ :=
      sysDup_spec h.vfs.fd h.vfs.live hop.1 oldFd
    · exact ⟨s, by rw [FdOp.step, hres]; rfl, h⟩
    · exact ⟨s', by rw [FdOp.step, hres]; rfl, h.shares hshares⟩
  | dup2 task oldFd newFd =>
    obtain ⟨-, r, hres⟩ | ⟨-, -, j, s₁, s', r, -, hres, h₁, -, hshares⟩ :=
      sysDup2_spec (P := KeptBy console y) (fun _ h => h.1.fd) (fun _ h => h.1.live) hy hop.1
        oldFd newFd fun j s' hj hne hold hcloses =>
          hy.closes (fun heq => hopen _ heq ⟨rfl, hj, hne, hold⟩) hcloses
    · exact ⟨s, by rw [FdOp.step, hres]; rfl, h⟩
    · exact ⟨s', by rw [FdOp.step, hres]; rfl, h₁.inv.shares hshares⟩
  | fork parent child => exact h.taskFork hop.1.2
  | exec task => exact ⟨s, by rw [FdOp.step, sysExec_eq], h⟩
  | exit task victims isInit =>
    have hstable : CloseStable (fun t => t = task ∨ t ∈ victims) (KeptBy console y) :=
      KeptBy.closeStable fun x hx hT => hopen x hx hT
    obtain ⟨s', hs', h'⟩ := hstable.taskExit (Or.inl rfl) (fun _ hv => Or.inr hv) hy isInit
    exact ⟨s', hs', h'.inv⟩
  | waitpid zombie =>
    exact ⟨_, rfl, h.retire (h.vfs.fd.closed zombie (by
      simp [show s.status zombie = .zombie from hop.1])) .dead⟩
  | unlink n => exact absurd rfl (hop.2 n)

end ConsoleInv

/-- In every run whose steps keep the console: the count is 1 while an open file refers
to the console and else 0, and the driver lets an open through exactly when none
does. -/
theorem console_count {s₀ s : VfsState} {console : Ptr} (hboot : s₀.Booted console)
    (hrun : Reach FdOp.step (fun s op => op.KeepsTree s ∧ op.KeepsConsole console s) s₀ s) :
    ((∃ of file, s.files of = some file ∧ file.node = console) → s.consoleOpenCount = 1) ∧
    ((¬∃ of file, s.files of = some file ∧ file.node = console) → s.consoleOpenCount = 0) ∧
    (s.devfsConsoleOpen.2 = 0 ↔ ¬∃ of file, s.files of = some file ∧ file.node = console) := by
  have hinv : ConsoleInv console s := by
    refine Reach.invariant (.booted hboot) (fun s op s' h hop hs => ?_) hrun
    obtain ⟨s₁, hs₁, h₁⟩ := h.step hop.1 hop.2
    rw [hs] at hs₁
    cases hs₁
    exact h₁
  -- an open file has a descriptor
  have hheld : (∃ of file, s.files of = some file ∧ file.node = console) ↔
      ∃ y, s.Holds console y := by
    constructor
    · rintro ⟨of, file, hfile, hn⟩
      have hpos : 0 < s.refs of := (hinv.vfs.fd.live of).mp (by rw [hfile]; rfl)
      obtain ⟨y, -, hy⟩ := RefCount.refs_pos_iff.mp hpos
      exact ⟨y, of, file, hy, hfile, hn⟩
    · rintro ⟨y, of, file, -, hfile, hn⟩
      exact ⟨of, file, hfile, hn⟩
  rw [hheld]
  unfold VfsState.devfsConsoleOpen
  obtain ⟨hsome, hone⟩ | ⟨hnone, hzero⟩ := hinv.count
  · simp [hsome, hone]
  · have hno : ¬∃ y, s.Holds console y := not_exists.mpr hnone
    simp [hno, hzero]

/-- While an open file holds the console, the driver refuses another open. -/
theorem console_count_sample :
    ∃ s, Reach FdOp.step (fun s op => op.KeepsTree s ∧ op.KeepsConsole 1 s) sampleBoot s ∧
      s.devfsConsoleOpen.2 ≠ 0 := by
  have hopen : Reach FdOp.step (fun s op => op.KeepsTree s ∧ op.KeepsConsole 1 s) sampleBoot _ :=
    .next (i := .openFile 1 (.found 1) 2 (some 9)) .start
      ⟨⟨⟨rfl, ⟨_, rfl, rfl⟩, by rintro of ⟨⟩; rfl⟩, by simp⟩,
        Or.inr (by rintro y ⟨of, file, ⟨⟩, -⟩), by rintro task flags alloc ⟨⟩ -; decide⟩ rfl
  refine ⟨_, hopen, ?_⟩
  rw [Ne, (console_count sampleBoot_booted hopen).2.2, not_not]
  exact ⟨9, _, rfl, rfl⟩

/-- The console is opened and closed: no open file is left, the count stays 1, and
opening it again fails with `-EACCES`. -/
theorem console_stays_busy :
    ∃ s, Reach FdOp.step FdOp.KeepsTree sampleBoot s ∧ (∀ of, s.files of = none) ∧
      s.consoleOpenCount = 1 ∧ s.devfsConsoleOpen.2 ≠ 0 ∧
      ∃ s', sysOpen s 1 (.found 1) 2 (some 9) = some (s', -vfsEAcces) := by
  have hopen : Reach FdOp.step FdOp.KeepsTree sampleBoot _ :=
    .next (i := .openFile 1 (.found 1) 2 (some 9)) .start
      ⟨⟨rfl, ⟨_, rfl, rfl⟩, by rintro of ⟨⟩; rfl⟩, by simp⟩ rfl
  have hclose : Reach FdOp.step FdOp.KeepsTree sampleBoot _ :=
    .next (i := .close 1 0) hopen ⟨rfl, by simp⟩ rfl
  have hfiles : ∀ of : Ptr, Function.update (Function.update (fun _ => none) 9
      (some (⟨1, 0, 2, 1⟩ : OpenFile))) 9 none of = none := by
    intro of
    by_cases hof : of = (9 : Ptr)
    · rw [hof, Function.update_self]
    · simp [Function.update_of_ne hof]
  exact ⟨_, hclose, hfiles, rfl, by decide, _, rfl⟩

end EnclaveOS
