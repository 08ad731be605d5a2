import EnclaveOS.Fs.VfsOpenSpec

/-!
# PathLeaks - resolving and opening again and again

Lookups of one path, and opens of it without `O_CREAT` that are closed again, in any number.
They leave the heap and the tree as they were, except that `fat32_finddir` makes a node for
every entry it finds and nothing frees it.
-/

namespace EnclaveOS

open PathGraph

/-- A tree with file systems mounted on it: what paths reach is intact, and unlinking has taken
its nodes out. -/
structure MountedTree where
  state : VfsTreeState
  tree : Ptr → Prop
  ok : TreeOk state tree
  linked : ∀ n node, tree n → state.nodes n = some node → node.isUnlinked = false

/-- Something that is done with a path. -/
inductive PathUse
  | findnode
  | openClose (task : TaskId) (flags mode : Nat)

/-- The flags of an open do not ask for a new file. -/
def PathUse.NoCreate : PathUse → Prop
  | .findnode => True
  | .openClose _ flags _ => flags &&& oCreat = 0

namespace VfsTreeState

/-- The state after a path is resolved, or opened and, if that succeeds, closed. -/
def use (path : List Nat) (s : VfsTreeState) : PathUse → Option VfsTreeState
  | .findnode => (vfsFindnode s path).map Prod.fst
  | .openClose task flags mode => do
    let (s, fd) ← s.sysOpen task path flags mode
    if fd < 0 then some s else (s.closeFd task fd).map Prod.fst

end VfsTreeState

/-- The same blocks of the heap are in use, and the same nodes are linked in the same way. -/
structure SameBlocks (s s' : VfsTreeState) : Prop where
  live : ∀ p, s'.live p = s.live p
  node : ∀ n, s'.Node n ↔ s.Node n
  links : s'.links = s.links

theorem SameTree.sameBlocks {s s' : VfsTreeState} (h : SameTree s s') : SameBlocks s s' where
  live p := by
    have hnode := (Bool.eq_iff_iff).mpr (h.node_iff p)
    unfold VfsTreeState.live
    rw [h.objects.files, hnode, h.objects.data, h.fatNodes]
  node := h.node_iff
  links := h.links

/-- Any number of uses of the path that create nothing leave the heap and the tree as they are. -/
def KeepsHeap (s : VfsTreeState) (path : List Nat) : Prop :=
  ∀ uses : List PathUse, (∀ u ∈ uses, u.NoCreate) →
    ∃ s', uses.foldlM (VfsTreeState.use path) s = some s' ∧ SameBlocks s s'

namespace MountedTree

variable {t : MountedTree} {path : List Nat}

/-- The tree after the objects changed in what `SameTree` leaves open. -/
def next (t : MountedTree) {s' : VfsTreeState} (h : SameTree t.state s') : MountedTree where
  state := s'
  tree := t.tree
  ok := h.treeOk t.ok
  linked n node hn hnode := by
    obtain ⟨old, hold, hfixed⟩ := h.objects.node hnode
    rw [(VfsNode.fixed_eq hfixed).2.2.2.2]
    exact t.linked n old hn hold

/-- A use of a path that finds no entry on a disk changes no object. -/
theorem use_keeps (hno : ¬t.state.MakesNode path) {u : PathUse} (hu : u.NoCreate) :
    ∃ s', t.state.use path u = some s' ∧ SameTree t.state s' := by
  have hfind := t.ok.findnode_eq hno
  cases u with
  | findnode => exact ⟨t.state, by rw [VfsTreeState.use, hfind]; rfl, .refl _⟩
  | openClose task flags mode =>
    have hflags : flags &&& oCreat = 0 := hu
    unfold VfsTreeState.use VfsTreeState.sysOpen
    rw [hfind]
    dsimp only [Option.bind_eq_bind, Option.bind_some]
    cases hnode : t.state.pathNode path with
    | none =>
      dsimp only
      rw [if_pos hflags, Option.bind_some]
      exact ⟨t.state, rfl, .refl _⟩
    | some n =>
      dsimp only
      have hmem := t.ok.pathNode_mem hnode
      obtain ⟨node, hn⟩ := Option.isSome_iff_exists.mp (t.ok.node n hmem)
      obtain ⟨s₁, fd, hopen⟩ := openAt_returns task flags hn
      rw [hopen, Option.bind_some]
      obtain ⟨hfail, hsame⟩ | ⟨hfd, s₂, hclose, hsame⟩ :=
        openAt_close hn (t.linked n node hmem hn) hopen
      · rw [if_pos hfail]
        exact ⟨s₁, rfl, hsame⟩
      · rw [if_neg (Int.not_lt.mpr hfd), hclose]
        exact ⟨s₂, rfl, hsame⟩

/-- Any number of uses of such a path changes no object. -/
theorem uses_keep (hno : ¬t.state.MakesNode path) (uses : List PathUse)
    (huses : ∀ u ∈ uses, u.NoCreate) :
    ∃ s', uses.foldlM (VfsTreeState.use path) t.state = some s' ∧ SameTree t.state s' := by
  induction uses generalizing t with
  | nil => exact ⟨t.state, rfl, .refl _⟩
  | cons u uses ih =>
    obtain ⟨hu, hrest⟩ := List.forall_mem_cons.mp huses
    obtain ⟨s₁, hs₁, hsame⟩ := use_keeps hno hu
    have hno₁ : ¬(t.next hsame).state.MakesNode path := fun h => hno ((hsame.makesNode_iff path).mp h)
    obtain ⟨s₂, hs₂, hsame₂⟩ := ih hno₁ hrest
    refine ⟨s₂, ?_, hsame.trans hsame₂⟩
    rw [List.foldlM_cons, hs₁]
    exact hs₂

/-- A lookup that finds an entry on a disk leaks the node it makes. -/
theorem not_keepsHeap (hmakes : t.state.MakesNode path) : ¬KeepsHeap t.state path := by
  intro hkeeps
  obtain ⟨s', hs', hsame⟩ := hkeeps [.findnode] (by simp [PathUse.NoCreate])
  rw [List.foldlM_cons, Option.bind_eq_bind, Option.bind_eq_some_iff] at hs'
  obtain ⟨s₁, hs₁, hrest⟩ := hs'
  obtain rfl : s₁ = s' := Option.some.inj hrest
  obtain ⟨⟨s₂, r⟩, hfind, rfl⟩ := Option.map_eq_some_iff.mp hs₁
  obtain ⟨-, child, hnot, hchild⟩ := t.ok.findnode_makes hmakes hfind
  exact hnot ((hsame.node child).mp hchild)

end MountedTree

/-- Lookups, and opens that create nothing and are closed, leak nothing exactly when the path leads
to no entry of a FAT disk. -/
theorem lookups_keep_heap_iff (t : MountedTree) (path : List Nat) :
    KeepsHeap t.state path ↔ ¬t.state.MakesNode path := by
  constructor
  · exact fun hkeeps hmakes => MountedTree.not_keepsHeap hmakes hkeeps
  · intro hno uses huses
    obtain ⟨s', hs', hsame⟩ := MountedTree.uses_keep hno uses huses
    exact ⟨s', hs', hsame.sameBlocks⟩

/-- The root, the directory `c` in it, and a FAT disk mounted there with one file `a`. -/
def diskState : VfsTreeState where
  status _ := .dead
  fdTable _ := none
  files _ := none
  nodes n :=
    if n = 0 then some ⟨0, fsDirectory, .other, none, 0, false⟩
    else if n = 1 then some ⟨0, fsDirectory ||| fsMountpoint, .other, none, 0, false⟩
    else if n = 2 then some ⟨0, fsDirectory, .other, some 3, 0, false⟩
    else none
  fileData _ := none
  consoleOpenCount := 0
  root := 0
  links n :=
    if n = 0 then ⟨[slash], some 1, none, none, some .generic, false⟩
    else if n = 1 then ⟨[99], none, none, some 2, some .generic, false⟩
    else ⟨[100], none, none, none, some .fat32, false⟩
  fatNodes p := if p = 3 then some ⟨2, 0⟩ else none
  fatDir cluster name := if cluster = 2 ∧ name = [97] then some ⟨false, 5, 10⟩ else none
  outcomes k := if k = 0 then some 10 else some 11
  mallocs := 0

theorem diskState_ok : TreeOk diskState fun n => n = 0 ∨ n = 1 ∨ n = 2 where
  root := Or.inl rfl
  node n hn := by rcases hn with rfl | rfl | rfl <;> rfl
  children n hn := by
    rcases hn with rfl | rfl | rfl
    · exact ⟨[1], ⟨rfl, rfl⟩, by simp⟩
    · exact ⟨[], rfl, by simp⟩
    · exact ⟨[], rfl, by simp⟩
  mount n m hn hm := by
    rcases hn with rfl | rfl | rfl
    · cases hm
    · cases hm
      simp
    · cases hm
  fat n node p hn hfat hnode hpriv := by
    rcases hn with rfl | rfl | rfl
    · cases hfat
    · cases hfat
    · cases hnode
      cases hpriv
      rfl

/-- The tree of this disk. -/
def diskTree : MountedTree where
  state := diskState
  tree n := n = 0 ∨ n = 1 ∨ n = 2
  ok := diskState_ok
  linked n node hn hnode := by
    rcases hn with rfl | rfl | rfl <;> (obtain rfl := Option.some.inj hnode; rfl)

/-- Looking up the file of the disk once leaks its node. -/
theorem disk_lookup_leaks : ¬KeepsHeap diskTree.state [slash, 99, slash, 97] := by
  apply MountedTree.not_keepsHeap
  have hnames : components slash [99, slash, 97] = [[99], [97]] := by decide
  have hpieces : pieces (vfsMaxFilename - 1) slash [99, slash, 97] = [[99], [97]] := by
    rw [pieces_eq_components (by rw [hnames]; decide), hnames]
  have hchildren : diskState.children 0 = some [1] :=
    VfsTreeState.children_eq_some.mpr ⟨rfl, rfl⟩
  have hlookup : diskState.graph.lookup 0 [99] = some 1 := by
    simp only [VfsTreeState.graph, hchildren, Option.bind_some]
    rfl
  have hwalk : diskState.graph.Walk 0 [[99]] (0 + (0 + 1)) 2 :=
    .enter (.here rfl) hlookup (.stop (.hop rfl rfl (.here rfl)))
  refine ⟨[99, slash, 97], rfl, [[99]], [97], [], 1, 2, hpieces, by decide, hwalk, rfl, ⟨2, 0⟩, rfl,
    rfl⟩

end EnclaveOS
