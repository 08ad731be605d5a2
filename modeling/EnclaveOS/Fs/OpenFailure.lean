import EnclaveOS.Fs.ParentPath
import EnclaveOS.Fs.PathLeaks
import EnclaveOS.Fs.TmpfsDirs

/-!
# OpenFailure - what a failing open leaves behind

Calls of `sys_open` that return an error.  The driver's callback and `tmpfs_create` come
before the last steps that can fail, and nothing takes their effect back: the console stays
counted as open, a file stays truncated, and a new file stays in its directory.
-/

namespace EnclaveOS

open PathGraph

/-- The callback of the node changes nothing: the console is open already, or the file is not
truncated. -/
def VfsState.OpensQuietly (s : VfsState) (node : VfsNode) (flags : Nat) : Prop :=
  match node.driver with
  | .other => True
  | .console => 0 < s.consoleOpenCount
  | .tmpfs => flags &&& oTrunc ≠ 0 → ∀ p fdata, node.privateData = some p →
      s.fileData p = some fdata → fdata.size = 0 ∧ node.size = 0

/-- Truncation changes nothing when there is nothing to cut off. -/
theorem tmpfsOpenNode_quiet_iff {s : VfsState} {n : Ptr} {node : VfsNode} (flags : Nat)
    (hnode : s.nodes n = some node) :
    s.tmpfsOpenNode n node flags = s ↔ (flags &&& oTrunc ≠ 0 → ∀ p fdata,
      node.privateData = some p → s.fileData p = some fdata → fdata.size = 0 ∧ node.size = 0) := by
  have hself : s.setNode n (some node) = s := by
    unfold VfsState.setNode
    rw [← hnode, Function.update_eq_self]
  obtain ⟨size, nodeFlags, driver, privateData, refCount, isUnlinked⟩ := node
  unfold VfsState.tmpfsOpenNode tmpfsOpen
  cases privateData with
  | none => simp
  | some p =>
    dsimp only
    by_cases htrunc : flags &&& oTrunc ≠ 0
    · rw [if_pos htrunc]
      cases hdata : s.fileData p with
      | none =>
        dsimp only
        rw [hself, ← hdata, Function.update_eq_self]
        refine iff_of_true rfl fun _ q fdata hq hfdata => ?_
        cases hq
        rw [hdata] at hfdata
        cases hfdata
      | some fdata =>
        dsimp only
        constructor
        · intro heq _ q fdata' hq hfdata
          cases hq
          obtain rfl := Option.some.inj (hdata.symm.trans hfdata)
          have hnodes := congrFun (congrArg VfsState.nodes heq) n
          have hfile := congrFun (congrArg VfsState.fileData heq) p
          simp only [VfsState.setNode_nodes, Function.update_self, hnode, hdata,
            Option.some.injEq, VfsNode.mk.injEq] at hnodes hfile
          exact ⟨by rw [← hfile], hnodes.1.symm⟩
        · intro hquiet
          obtain ⟨hsize, rfl⟩ := hquiet htrunc p fdata rfl hdata
          have hfile : some { fdata with size := 0 } = s.fileData p := by
            rw [hdata, ← hsize]
          rw [hfile, Function.update_eq_self, hself]
    · rw [if_neg htrunc]
      dsimp only
      rw [hself, Function.update_eq_self]
      exact iff_of_true rfl fun h => absurd h htrunc

theorem openCallback_quiet_iff {s : VfsState} {n : Ptr} {node : VfsNode} (flags : Nat)
    (hnode : s.nodes n = some node) :
    (s.openCallback n node flags).1 = s ↔ s.OpensQuietly node flags := by
  unfold VfsState.openCallback VfsState.OpensQuietly
  cases node.driver with
  | other => simp
  | console =>
    dsimp only [VfsState.devfsConsoleOpen]
    by_cases hopen : 0 < s.consoleOpenCount
    · rw [if_pos hopen]
      simp [hopen]
    · rw [if_neg hopen]
      refine iff_of_false (fun heq => ?_) hopen
      have hcount := congrArg VfsState.consoleOpenCount heq
      simp at hcount
  | tmpfs => exact tmpfsOpenNode_quiet_iff flags hnode

namespace VfsTreeState

variable {s s' : VfsTreeState} {task : TaskId} {n : Ptr} {node : VfsNode} {flags : Nat} {e : Int}

/-- A kernel file, which is opened by nobody. -/
def Protected (node : VfsNode) : Prop :=
  node.flags &&& fsSystem ≠ 0 ∧ node.flags &&& fsDirectory = 0

/-- What is left when a node is not opened: the effect of the callback, unless the node is refused
before it is called. -/
theorem openAt_fails (hnode : s.nodes n = some node) (h : s.openAt task n flags = some (s', e))
    (he : e < 0) :
    ∃ s₁, s' = { s.kmalloc.1 with toVfsState := s₁ } ∧
      (Protected node ∧ s₁ = s.toVfsState ∨
        ¬Protected node ∧ s₁ = (s.openCallback n node flags).1) := by
  obtain ⟨node', hnode', heq⟩ := openNode_eq task flags s.kmalloc.2 hnode
  have hopen : (openNode s.toVfsState task n flags s.kmalloc.2).map
      (fun r => ({ s.kmalloc.1 with toVfsState := r.1 }, r.2)) = some (s', e) := h
  obtain ⟨⟨s₁, e'⟩, hs₁, hpair⟩ := Option.map_eq_some_iff.mp hopen
  cases hpair
  refine ⟨s₁, rfl, ?_⟩
  rw [heq] at hs₁
  by_cases hprot : node.flags &&& fsSystem ≠ 0 ∧ node.flags &&& fsDirectory = 0
  · rw [if_pos hprot] at hs₁
    exact Or.inl ⟨hprot, (Prod.mk.inj (Option.some.inj hs₁)).1.symm⟩
  · rw [if_neg hprot] at hs₁
    refine Or.inr ⟨hprot, ?_⟩
    split_ifs at hs₁
    · exact (Prod.mk.inj (Option.some.inj hs₁)).1.symm
    · cases hmalloc : s.kmalloc.2 with
      | none =>
        rw [hmalloc] at hs₁
        exact (Prod.mk.inj (Option.some.inj hs₁)).1.symm
      | some of =>
        rw [hmalloc] at hs₁
        cases hfd : s.freeFd task with
        | none =>
          rw [hfd] at hs₁
          exact (Prod.mk.inj (Option.some.inj hs₁)).1.symm
        | some i =>
          rw [hfd] at hs₁
          obtain ⟨-, hi⟩ := Prod.mk.inj (Option.some.inj hs₁)
          have hpos : 0 ≤ ((i : Nat) : Int) := Int.natCast_nonneg _
          rw [← hi] at he
          exact absurd hpos (Int.not_le.mpr he)

/-- A node that is not opened is left as it was, if it is refused or its callback does nothing. -/
theorem openAt_unchanged_iff (hnode : s.nodes n = some node)
    (h : s.openAt task n flags = some (s', e)) (he : e < 0) :
    s.Unchanged s' ↔ Protected node ∨ s.OpensQuietly node flags := by
  obtain ⟨s₁, rfl, hcases⟩ := openAt_fails hnode h he
  have hiff : s.Unchanged { s.kmalloc.1 with toVfsState := s₁ } ↔ s₁ = s.toVfsState :=
    ⟨fun hsame => hsame.objects, fun hsame => ⟨hsame, fun _ _ => rfl, rfl, rfl, rfl⟩⟩
  rw [hiff]
  obtain ⟨hprot, hs₁⟩ | ⟨hprot, hs₁⟩ := hcases
  · exact iff_of_true hs₁ (Or.inl hprot)
  · rw [hs₁, openCallback_quiet_iff flags hnode, or_iff_right hprot]

theorem openAt_grows (h : s.openAt task n flags = some (s', e)) : s.Grows s' := by
  have hopen : (openNode s.toVfsState task n flags s.kmalloc.2).map
      (fun r => ({ s.kmalloc.1 with toVfsState := r.1 }, r.2)) = some (s', e) := h
  obtain ⟨⟨s₁, e'⟩, hs₁, hpair⟩ := Option.map_eq_some_iff.mp hopen
  cases hpair
  cases hnode : s.nodes n with
  | none =>
    unfold openNode at hs₁
    rw [hnode] at hs₁
    cases hs₁
  | some node =>
    obtain ⟨node', hnode', heq⟩ := openNode_eq task flags s.kmalloc.2 hnode
    have hcall : s.Grows { s with toVfsState := (s.openCallback n node flags).1 } := by
      intro m hm
      unfold Node at hm ⊢
      rw [← Option.isSome_map (f := VfsNode.fixed), (openCallback_same flags hnode).nodes,
        Option.isSome_map]
      exact hm
    have hopened : ∀ i of, s.Grows { s with
        toVfsState := (s.openCallback n node flags).1.opened task i n node' flags of } := by
      intro i of m hm
      have hold := hcall m hm
      unfold Node at hold ⊢
      unfold VfsState.opened
      simp only [VfsState.setSlot_nodes, VfsState.setFile_nodes, VfsState.setNode_nodes,
        Function.update_apply]
      split_ifs
      · rfl
      · exact hold
    have hres := heq.symm.trans hs₁
    split_ifs at hres
    · cases hres
      exact Grows.refl s
    · cases hres
      exact hcall
    · cases hmalloc : s.kmalloc.2 with
      | none =>
        rw [hmalloc] at hres
        cases hres
        exact hcall
      | some of =>
        rw [hmalloc] at hres
        cases hfd : s.freeFd task with
        | none =>
          rw [hfd] at hres
          cases hres
          exact hcall
        | some i =>
          rw [hfd] at hres
          cases hres
          exact hopened i of

theorem findnode_grows {path : List Nat} {r : Option Ptr}
    (h : vfsFindnode s path = some (s', r)) : s.Grows s' := by
  cases path with
  | nil =>
    cases h
    exact Grows.refl s
  | cons c path =>
    rw [vfsFindnode] at h
    split_ifs at h
    · cases h
      exact Grows.refl s
    · cases h
      exact Grows.refl s
    · exact resolve_grows h

theorem openParent_grows {path : List Nat} {r : Except Int (Ptr × List Nat)}
    (h : s.openParent path = some (s', r)) : s.Grows s' := by
  unfold openParent at h
  split_ifs at h
  · cases h
    exact Grows.refl s
  · cases hslash : lastSlash path with
    | none =>
      rw [hslash] at h
      cases h
      exact Grows.refl s
    | some i =>
      rw [hslash] at h
      dsimp only at h
      split_ifs at h
      obtain ⟨⟨s₁, parent⟩, hfind, h⟩ := Option.bind_eq_some_iff.mp h
      have hgrows := findnode_grows hfind
      cases parent with
      | none =>
        cases h
        exact hgrows
      | some m =>
        obtain ⟨parent, -, h⟩ := Option.bind_eq_some_iff.mp h
        cases parent with
        | none =>
          cases h
          exact hgrows
        | some d =>
          obtain ⟨node, -, h⟩ := Option.bind_eq_some_iff.mp h
          split_ifs at h
          all_goals
            cases h
            exact hgrows

/-- Only free memory was written. -/
theorem grows_of_free {x : Option VfsNode} (hfree : s.nodes n = none)
    (h : s'.nodes = Function.update s.nodes n x) : s.Grows s' := by
  intro m hm
  have hmn : m ≠ n := by
    rintro rfl
    unfold Node at hm
    rw [hfree] at hm
    cases hm
  unfold Node at hm ⊢
  rwa [h, Function.update_of_ne hmn]

theorem tmpfsCreate_grows {parent : Ptr} {name : List Nat} {mode : Nat} {r : Option Ptr}
    (h : s.tmpfsCreate parent name mode = some (s', r)) : s.Grows s' := by
  unfold tmpfsCreate at h
  cases hmalloc : s.kmalloc with
  | mk s₁ node =>
    rw [hmalloc] at h
    cases node with
    | none =>
      obtain ⟨rfl, -⟩ := Prod.mk.inj (Option.some.inj h)
      obtain rfl : s₁ = { s with mallocs := s.mallocs + 1 } := (congrArg Prod.fst hmalloc).symm
      exact Grows.refl s
    | some n =>
      obtain ⟨rfl, hfree⟩ := kmalloc_eq hmalloc
      have hnone := not_node_of_not_live hfree
      dsimp only at h
      split_ifs at h
      · obtain ⟨s₂, hadd, h⟩ := Option.bind_eq_some_iff.mp h
        cases h
        exact grows_of_free hnone (congrArg VfsState.nodes (vfsAddChild_objects hadd).1)
      · generalize hlinks : VfsTreeState.setLinks _ n _ = t at h
        have ht : t.nodes = s.nodes := by
          rw [← hlinks]
          rfl
        cases hdata : (t.putVfsNode n (some ⟨0, fsFile, .tmpfs, none, 0, false⟩)).kmalloc with
        | mk t₁ fdata =>
          have ht₁ : t₁.nodes = Function.update s.nodes n
              (some ⟨0, fsFile, .tmpfs, none, 0, false⟩) := by
            rw [← ht]
            exact congrArg (fun r => r.1.nodes) hdata.symm
          rw [hdata] at h
          cases fdata with
          | none =>
            cases h
            refine grows_of_free (x := none) hnone ?_
            rw [putVfsNode_toVfsState]
            unfold VfsState.setNode
            dsimp only
            rw [ht₁, Function.update_idem]
          | some fdata =>
            obtain ⟨s₂, hadd, h⟩ := Option.bind_eq_some_iff.mp h
            cases h
            refine grows_of_free (x := some ⟨0, fsFile, .tmpfs, some fdata, 0, false⟩) hnone ?_
            rw [(vfsAddChild_objects hadd).1, putVfsNode_toVfsState]
            unfold VfsState.setNode
            dsimp only
            rw [ht₁, Function.update_idem]

theorem sysOpen_grows {path : List Nat} {mode : Nat}
    (h : s.sysOpen task path flags mode = some (s', e)) :
    ∃ s₁ r, vfsFindnode s path = some (s₁, r) ∧ s₁.Grows s' := by
  obtain ⟨⟨s₁, r⟩, hfind, h⟩ := Option.bind_eq_some_iff.mp h
  refine ⟨s₁, r, hfind, ?_⟩
  cases r with
  | some n => exact openAt_grows h
  | none =>
    dsimp only at h
    split_ifs at h
    · obtain ⟨rfl, -⟩ := Prod.mk.inj (Option.some.inj h)
      exact Grows.refl s₁
    · obtain ⟨⟨s₂, parent⟩, hparent, h⟩ := Option.bind_eq_some_iff.mp h
      have hgrows := openParent_grows hparent
      cases parent with
      | error e' =>
        cases h
        exact hgrows
      | ok at' =>
        obtain ⟨⟨s₃, r⟩, hcreate, h⟩ := Option.bind_eq_some_iff.mp h
        have hgrows := hgrows.trans (tmpfsCreate_grows hcreate)
        cases r with
        | none =>
          cases h
          exact hgrows
        | some n => exact hgrows.trans (openAt_grows h)

end VfsTreeState

/-- The conditions under which an error of `sys_open` leaves nothing behind. -/
structure OpenLeavesNothing (s : VfsTreeState) (path : List Nat) (flags mode : Nat) : Prop where
  noDisk : ¬s.MakesNode path
  quiet : ∀ n node, s.pathNode path = some n → s.nodes n = some node →
    VfsTreeState.Protected node ∨ s.OpensQuietly node flags
  noCreate : s.pathNode path = none → flags &&& oCreat ≠ 0 → (∃ d, s.CreatesIn path d) →
    ¬s.NodeMemory mode

namespace MountedTree

variable {t : MountedTree} {s' : VfsTreeState} {task : TaskId} {path : List Nat} {flags mode : Nat}
  {e : Int}

/-- An open that creates and then fails: the file is left, if there was memory for it. -/
theorem create_unchanged_iff (hno : ¬t.state.MakesNode path)
    (hnode : t.state.pathNode path = none) (hflags : flags &&& oCreat ≠ 0)
    (h : t.state.sysOpen task path flags mode = some (s', e)) :
    t.state.Unchanged s' ↔ ((∃ d, t.state.CreatesIn path d) → ¬t.state.NodeMemory mode) := by
  unfold VfsTreeState.sysOpen at h
  rw [t.ok.findnode_eq hno, hnode, Option.bind_eq_bind, Option.bind_some] at h
  dsimp only at h
  rw [if_neg hflags] at h
  obtain ⟨r, hparent, h⟩ := Option.bind_eq_some_iff.mp h
  obtain ⟨e', rfl, -, hnone⟩ | ⟨d, i, rfl, hd, -, hcreates⟩ := t.ok.openParent_cases hno hparent
  · cases h
    refine iff_of_true ⟨rfl, fun _ _ => rfl, rfl, rfl, rfl⟩ ?_
    rintro ⟨d, hd⟩
    exact absurd hd (hnone d)
  · obtain ⟨⟨s₁, r⟩, hcreate, h⟩ := Option.bind_eq_some_iff.mp h
    obtain ⟨l, hl, hmem⟩ := t.ok.children d hd
    obtain ⟨s₂, hfail, hmemory, hsame⟩ | ⟨s₂, n, hmade, hmemory, hcreated⟩ :=
      VfsTreeState.tmpfsCreate_spec hl (fun c hc => t.ok.node c (hmem c hc)) (t.ok.node d hd)
        ((path.drop (i + 1)).take 255) mode
    · obtain ⟨rfl, rfl⟩ := Prod.mk.inj (Option.some.inj (hcreate.symm.trans hfail))
      cases h
      exact iff_of_true hsame fun _ => hmemory
    · obtain ⟨rfl, rfl⟩ := Prod.mk.inj (Option.some.inj (hcreate.symm.trans hmade))
      refine iff_of_false (fun hsame => ?_) fun hcond => hcond ⟨d, hcreates⟩ hmemory
      obtain ⟨priv, hnodes⟩ := hcreated.nodes
      have hnew : s₁.Node n := by
        unfold VfsTreeState.Node
        rw [hnodes, Function.update_self]
        rfl
      have hleft := VfsTreeState.openAt_grows h n hnew
      unfold VfsTreeState.Node at hleft
      rw [hsame.objects, VfsTreeState.not_node_of_not_live hcreated.free] at hleft
      cases hleft

end MountedTree

/-- An open that fails leaves everything as it was exactly when it finds no entry on a disk, opens
quietly a node that it finds, and creates none. -/
theorem failing_open_iff (t : MountedTree) {task : TaskId} {path : List Nat} {flags mode : Nat}
    {s' : VfsTreeState} {e : Int} (h : t.state.sysOpen task path flags mode = some (s', e))
    (he : e < 0) :
    t.state.Unchanged s' ↔ OpenLeavesNothing t.state path flags mode := by
  by_cases hmakes : t.state.MakesNode path
  · refine iff_of_false (fun hsame => ?_) fun hcond => hcond.noDisk hmakes
    obtain ⟨s₁, r, hfind, hgrows⟩ := VfsTreeState.sysOpen_grows h
    obtain ⟨-, child, hnot, hchild⟩ := t.ok.findnode_makes hmakes hfind
    have hleft := hgrows child hchild
    unfold VfsTreeState.Node at hnot hleft
    rw [hsame.objects] at hleft
    exact hnot hleft
  cases hnode : t.state.pathNode path with
  | some n =>
    obtain ⟨node, hn⟩ := Option.isSome_iff_exists.mp (t.ok.node n (t.ok.pathNode_mem hnode))
    have hopen : t.state.openAt task n flags = some (s', e) := by
      unfold VfsTreeState.sysOpen at h
      rwa [t.ok.findnode_eq hmakes, hnode] at h
    rw [VfsTreeState.openAt_unchanged_iff hn hopen he]
    constructor
    · intro hquiet
      refine ⟨hmakes, fun m mnode hm hmnode => ?_, fun hnone => ?_⟩
      · obtain rfl := Option.some.inj (hnode.symm.trans hm)
        obtain rfl := Option.some.inj (hn.symm.trans hmnode)
        exact hquiet
      · rw [hnode] at hnone
        cases hnone
    · exact fun hcond => hcond.quiet n node hnode hn
  | none =>
    have hquiet : ∀ n node, t.state.pathNode path = some n → t.state.nodes n = some node →
        VfsTreeState.Protected node ∨ t.state.OpensQuietly node flags := by
      intro n node hn
      rw [hnode] at hn
      cases hn
    by_cases hflags : flags &&& oCreat = 0
    · unfold VfsTreeState.sysOpen at h
      rw [t.ok.findnode_eq hmakes, hnode, Option.bind_eq_bind, Option.bind_some] at h
      dsimp only at h
      rw [if_pos hflags] at h
      cases h
      exact iff_of_true ⟨rfl, fun _ _ => rfl, rfl, rfl, rfl⟩
        ⟨hmakes, hquiet, fun _ hcreat => absurd hflags hcreat⟩
    · rw [MountedTree.create_unchanged_iff hmakes hnode hflags h]
      exact ⟨fun hcond => ⟨hmakes, hquiet, fun _ _ => hcond⟩, fun hcond => hcond.noCreate hnode hflags⟩

/-- The root and the console `c` in it; there is no memory. -/
def consoleState : VfsTreeState where
  status _ := .active
  fdTable _ := none
  files _ := none
  nodes n :=
    if n = 0 then some ⟨0, fsDirectory, .other, none, 0, false⟩
    else if n = 1 then some ⟨0, 0x04, .console, none, 0, false⟩
    else none
  fileData _ := none
  consoleOpenCount := 0
  root := 0
  links n :=
    if n = 0 then ⟨[slash], some 1, none, none, some .generic, false⟩
    else ⟨[99], none, none, none, none, false⟩
  fatNodes _ := none
  fatDir _ _ := none
  outcomes _ := none
  mallocs := 0

/-- The tree of this device. -/
def consoleTree : MountedTree where
  state := consoleState
  tree n := n = 0 ∨ n = 1
  ok := {
    root := Or.inl rfl
    node := by rintro n (rfl | rfl) <;> rfl
    children := by
      rintro n (rfl | rfl)
      · exact ⟨[1], ⟨rfl, rfl⟩, by simp⟩
      · exact ⟨[], rfl, by simp⟩
    mount := by rintro n m (rfl | rfl) hm <;> cases hm
    fat := by rintro n node p (rfl | rfl) hfat <;> cases hfat }
  linked := by rintro n node (rfl | rfl) hnode <;> (obtain rfl := Option.some.inj hnode; rfl)

theorem console_pathNode : consoleState.pathNode [slash, 99] = some 1 := by
  have hnames : components slash [99] = [[99]] := by decide
  have hpieces : pieces (vfsMaxFilename - 1) slash [99] = [[99]] := by
    rw [pieces_eq_components (by rw [hnames]; decide), hnames]
  have hchildren : consoleState.children 0 = some [1] :=
    VfsTreeState.children_eq_some.mpr ⟨rfl, rfl⟩
  have hlookup : consoleState.graph.lookup 0 [99] = some 1 := by
    simp only [VfsTreeState.graph, hchildren, Option.bind_some]
    rfl
  have hwalk : consoleState.graph.Walk 0 [[99]] (0 + 0) 1 :=
    .enter (.here rfl) hlookup (.stop (.here rfl))
  rw [VfsTreeState.pathNode, if_neg (by simp), if_neg (by simp), hpieces]
  exact walk_eq_some.mpr ⟨0, Nat.zero_le _, hwalk⟩

theorem console_no_disk (path : List Nat) : ¬consoleState.MakesNode path := by
  rintro ⟨rest, -, pre, x, tail, k, d, -, -, -, hfat, -⟩
  have hkind : ∀ n, (consoleState.links n).finddir ≠ some .fat32 := by
    intro n
    by_cases hn : n = 0 <;> simp [consoleState, hn]
  exact hkind d hfat

/-- Opening the console without memory for the open file. -/
theorem console_open_fails :
    ∃ s', consoleState.sysOpen 0 [slash, 99] 0 0 = some (s', -12) ∧ s'.consoleOpenCount = 1 := by
  have hfind := consoleTree.ok.findnode_eq (console_no_disk [slash, 99])
  have hnode : consoleTree.state.pathNode [slash, 99] = some 1 := console_pathNode
  rw [hnode] at hfind
  unfold VfsTreeState.sysOpen
  have hfind : vfsFindnode consoleState [slash, 99] = some (consoleState, some 1) := hfind
  rw [hfind]
  exact ⟨_, rfl, rfl⟩

/-- The console stays counted as open after an open that failed. -/
theorem failed_open_counts :
    ∃ s', consoleTree.state.sysOpen 0 [slash, 99] 0 0 = some (s', -12) ∧
      ¬consoleTree.state.Unchanged s' := by
  obtain ⟨s', hopen, hcount⟩ := console_open_fails
  refine ⟨s', hopen, fun hsame => ?_⟩
  rw [hsame.objects] at hcount
  cases hcount

theorem failing_open_console :
    ∃ s', consoleTree.state.sysOpen 0 [slash, 99] 0 0 = some (s', -12) ∧ (-12 : Int) < 0 ∧
      (consoleTree.state.Unchanged s' ↔ OpenLeavesNothing consoleTree.state [slash, 99] 0 0) := by
  obtain ⟨s', hopen, -⟩ := console_open_fails
  exact ⟨s', hopen, by decide, failing_open_iff consoleTree hopen (by decide)⟩

end EnclaveOS
