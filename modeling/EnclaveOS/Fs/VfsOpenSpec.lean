import EnclaveOS.Fs.VfsOpen
import EnclaveOS.Fs.VfsPathSpec
import EnclaveOS.Fs.VfsSpec

/-!
# VfsOpenSpec - what resolving, opening and closing leave behind

Path resolution and opening by cases on the state before the call.  A lookup changes the state only
when it finds an entry on a FAT disk, and then it makes a node.
-/

namespace EnclaveOS

open PathGraph

namespace VfsTreeState

/-- The node that a path names, when no disk is read. -/
def pathNode (s : VfsTreeState) : List Nat → Option Ptr
  | [] => none
  | c :: path =>
    if c ≠ slash then none
    else if path = [] then some s.root
    else s.graph.walk maxMountHops s.root (pieces (vfsMaxFilename - 1) slash path)

/-- Resolution of the path finds an entry on a FAT disk. -/
def MakesNode (s : VfsTreeState) (path : List Nat) : Prop :=
  ∃ rest, path = slash :: rest ∧
    s.Makes maxMountHops s.root (pieces (vfsMaxFilename - 1) slash rest)

theorem not_makes_nil (s : VfsTreeState) (left : Nat) (n : Ptr) : ¬s.Makes left n [] := by
  rintro ⟨pre, x, rest, -, -, h, -⟩
  simp at h

end VfsTreeState

theorem TreeOk.findnode_eq {s : VfsTreeState} {tree : Ptr → Prop} (h : TreeOk s tree)
    {path : List Nat} (hno : ¬s.MakesNode path) : vfsFindnode s path = some (s, s.pathNode path) := by
  cases path with
  | nil => rfl
  | cons c path =>
    rw [vfsFindnode, VfsTreeState.pathNode]
    by_cases hc : c ≠ slash
    · rw [if_pos hc, if_pos hc]
    rw [if_neg hc, if_neg hc]
    by_cases hroot : path = []
    · rw [if_pos hroot, if_pos hroot]
    · rw [if_neg hroot, if_neg hroot]
      apply h.resolve_eq h.root
      intro hmakes
      exact hno ⟨path, by rw [not_not.mp hc], hmakes⟩

/-- The node a path names is in the tree. -/
theorem TreeOk.pathNode_mem {s : VfsTreeState} {tree : Ptr → Prop} (h : TreeOk s tree)
    {path : List Nat} {n : Ptr} (hn : s.pathNode path = some n) : tree n := by
  cases path with
  | nil => cases hn
  | cons c path =>
    rw [VfsTreeState.pathNode] at hn
    split_ifs at hn
    · cases hn
      exact h.root
    · obtain ⟨k, -, hwalk⟩ := walk_eq_some.mp hn
      exact h.walk_mem h.root hwalk

namespace VfsTreeState

variable {s s' : VfsTreeState}

/-- No node is lost. -/
def Grows (s s' : VfsTreeState) : Prop := ∀ n, s.Node n → s'.Node n

theorem Grows.refl (s : VfsTreeState) : s.Grows s := fun _ => id

theorem Grows.trans {s'' : VfsTreeState} (h : s.Grows s') (h' : s'.Grows s'') : s.Grows s'' :=
  fun n hn => h' n (h n hn)

theorem vfsAddChild_objects {parent child : Ptr} (h : s.vfsAddChild parent child = some s') :
    s'.toVfsState = s.toVfsState ∧ s'.fatNodes = s.fatNodes := by
  unfold vfsAddChild at h
  dsimp only at h
  cases hfirst : ((s.setLinks child { s.links child with nextSibling := none }).links
      parent).firstChild with
  | none =>
    rw [hfirst] at h
    cases h
    exact ⟨rfl, rfl⟩
  | some c =>
    rw [hfirst] at h
    dsimp only [Option.bind_eq_bind] at h
    obtain ⟨l, -, hl⟩ := Option.bind_eq_some_iff.mp h
    obtain ⟨last, -, hlast⟩ := Option.bind_eq_some_iff.mp hl
    cases hlast
    exact ⟨rfl, rfl⟩

theorem kmalloc_eq {p : Ptr} (h : s.kmalloc = (s', some p)) :
    s' = { s with mallocs := s.mallocs + 1 } ∧ s.live p = false := by
  unfold kmalloc at h
  obtain ⟨rfl, hp⟩ := Prod.mk.inj h
  exact ⟨rfl, by simpa using (Option.filter_eq_some_iff.mp hp).2⟩

theorem not_node_of_not_live {p : Ptr} (h : s.live p = false) : s.nodes p = none := by
  unfold live at h
  simp only [Bool.or_eq_false_iff] at h
  simpa using h.1.1.2

/-- A node that `vfs_create_node` makes was free memory, and is all that changes. -/
theorem vfsCreateNode_objects {name : List Nat} {flags : Nat} {parent n : Ptr}
    (h : s.vfsCreateNode name flags parent = some (s', some n)) :
    s.live n = false ∧ s'.fatNodes = s.fatNodes ∧
      s'.toVfsState = s.toVfsState.setNode n (some ⟨0, flags, .other, none, 0, false⟩) := by
  unfold vfsCreateNode at h
  cases hmalloc : s.kmalloc with
  | mk s₁ node =>
    rw [hmalloc] at h
    cases node with
    | none => simp at h
    | some node =>
      obtain ⟨rfl, hfree⟩ := kmalloc_eq hmalloc
      dsimp only [Option.bind_eq_bind] at h
      obtain ⟨s₂, hadd, hs₂⟩ := Option.bind_eq_some_iff.mp h
      obtain ⟨rfl, hn⟩ := Prod.mk.inj (Option.some.inj hs₂)
      cases hn
      obtain ⟨hobjects, hfat⟩ := vfsAddChild_objects hadd
      exact ⟨hfree, hfat, hobjects⟩

/-- A node that `fat32_finddir` makes was free memory. -/
theorem fat32Finddir_makes {n child : Ptr} {name : List Nat}
    (h : s.fat32Finddir n name = some (s', some child)) :
    ∃ node, s.live child = false ∧ s'.nodes = Function.update s.nodes child (some node) := by
  unfold fat32Finddir at h
  simp only [Option.bind_eq_bind, Option.bind_eq_some_iff] at h
  obtain ⟨node, -, h⟩ := h
  cases hpriv : node.privateData with
  | none => simp [hpriv] at h
  | some p =>
    rw [hpriv] at h
    simp only [Option.bind_eq_some_iff] at h
    obtain ⟨data, -, h⟩ := h
    cases hdir : s.fatDir data.startCluster name with
    | none => simp [hdir] at h
    | some dir =>
      rw [hdir] at h
      simp only [Option.bind_eq_some_iff] at h
      obtain ⟨⟨s₁, made⟩, hcreate, c, hc, p, -, h⟩ := h
      obtain ⟨rfl, hchild⟩ := Prod.mk.inj (Option.some.inj h)
      obtain rfl := Option.some.inj hchild
      obtain rfl : made = some c := hc
      obtain ⟨hfree, -, hobjects⟩ := vfsCreateNode_objects hcreate
      have hnodes : s₁.nodes = Function.update s.nodes c _ := congrArg VfsState.nodes hobjects
      let node : VfsNode :=
        ⟨dir.fileSize, if dir.isDirectory then fsDirectory else fsFile, .other, some p, 0, false⟩
      refine ⟨node, hfree, ?_⟩
      change Function.update s₁.nodes c (some node) = _
      rw [hnodes, Function.update_idem]

/-- A lookup in a FAT directory that finds nothing changes nothing. -/
theorem fat32Finddir_none {n : Ptr} {name : List Nat}
    (h : s.fat32Finddir n name = some (s', none)) : s' = s ∧ ¬s.FatFound n name := by
  unfold fat32Finddir at h
  simp only [Option.bind_eq_bind, Option.bind_eq_some_iff] at h
  obtain ⟨node, hnode, h⟩ := h
  unfold FatFound fatData
  cases hpriv : node.privateData with
  | none =>
    rw [hpriv] at h
    cases h
    exact ⟨rfl, by simp [hnode, hpriv]⟩
  | some p =>
    rw [hpriv] at h
    simp only [Option.bind_eq_some_iff] at h
    obtain ⟨data, hdata, h⟩ := h
    cases hdir : s.fatDir data.startCluster name with
    | none =>
      rw [hdir] at h
      cases h
      exact ⟨rfl, by simp [hnode, hpriv, hdata, hdir]⟩
    | some dir =>
      rw [hdir] at h
      simp only [Option.bind_eq_some_iff] at h
      obtain ⟨_, -, _, -, _, -, h⟩ := h
      cases (Prod.mk.inj (Option.some.inj h)).2

/-- A callback changes nothing, or makes a node. -/
theorem finddir_cases {n : Ptr} {name : List Nat} {r : Option Ptr}
    (h : s.finddir n name = some (s', r)) :
    (s' = s ∧ ¬s.FatFound n name) ∨ s.Grows s' ∧ ∃ child, ¬s.Node child ∧ s'.Node child := by
  unfold finddir at h
  cases hfind : (s.links n).finddir with
  | none =>
    rw [hfind] at h
    cases h
    exact Or.inl ⟨rfl, fun hfat => by simp [FatFound, hfind] at hfat⟩
  | some kind =>
    rw [hfind] at h
    cases kind with
    | generic =>
      obtain ⟨_, -, hr⟩ := Option.map_eq_some_iff.mp h
      cases hr
      exact Or.inl ⟨rfl, fun hfat => by simp [FatFound, hfind] at hfat⟩
    | fat32 =>
      cases r with
      | none => exact Or.inl (fat32Finddir_none h)
      | some child =>
        obtain ⟨node, hfree, hnodes⟩ := fat32Finddir_makes h
        right
        refine ⟨fun m hm => ?_, child, ?_, ?_⟩
        · unfold Node at hm ⊢
          rw [hnodes, Function.update_apply]
          split_ifs
          · rfl
          · exact hm
        · simp [Node, not_node_of_not_live hfree]
        · simp [Node, hnodes]

/-- Resolution loses no node. -/
theorem resolve_grows {left : Nat} {n : Ptr} {path : List Nat} {r : Option Ptr}
    (h : s.resolve left n path = some (s', r)) : s.Grows s' := by
  induction hlen : path.length using Nat.strong_induction_on generalizing s left n path with
  | h len ih =>
    obtain ⟨-, hresolve⟩ | ⟨token, rest, hrest, -, hresolve⟩ := resolve_step s left n path
    · rw [hresolve] at h
      obtain ⟨_, -, hr⟩ := Option.map_eq_some_iff.mp h
      obtain ⟨rfl, -⟩ := Prod.mk.inj hr
      exact Grows.refl s
    · rw [hresolve] at h
      cases hmount : s.teleport left n with
      | none => simp [hmount] at h
      | some stop =>
        rw [hmount] at h
        cases stop with
        | none =>
          obtain ⟨rfl, -⟩ := Prod.mk.inj (Option.some.inj h)
          exact Grows.refl s
        | some at' =>
          obtain ⟨left', d⟩ := at'
          dsimp only at h
          cases hfind : s.finddir d token with
          | none => simp [hfind] at h
          | some found =>
            obtain ⟨s₁, found⟩ := found
            have hstep : s.Grows s₁ := by
              obtain ⟨rfl, -⟩ | ⟨hgrows, -⟩ := finddir_cases hfind
              · exact Grows.refl _
              · exact hgrows
            rw [hfind] at h
            cases found with
            | none =>
              cases h
              exact hstep
            | some b => exact hstep.trans (ih _ (by omega) h rfl)

end VfsTreeState

/-- Resolution that finds an entry on a disk makes a node. -/
theorem TreeOk.resolve_makes {s s' : VfsTreeState} {tree : Ptr → Prop} (h : TreeOk s tree)
    {left : Nat} {n : Ptr} (hn : tree n) {path : List Nat} {r : Option Ptr}
    (hmakes : s.Makes left n (pieces (vfsMaxFilename - 1) slash path))
    (hr : s.resolve left n path = some (s', r)) :
    s.Grows s' ∧ ∃ child, ¬s.Node child ∧ s'.Node child := by
  refine ⟨VfsTreeState.resolve_grows hr, ?_⟩
  induction hlen : path.length using Nat.strong_induction_on generalizing left n path with
  | h len ih =>
    obtain ⟨hempty, -⟩ | ⟨token, rest, hrest, hpieces, hresolve⟩ := resolve_step s left n path
    · rw [hempty] at hmakes
      exact absurd hmakes (s.not_makes_nil left n)
    · obtain ⟨pre, x, tail, k, d, hnames, hk, hwalk, hfat⟩ := hmakes
      rw [hpieces] at hnames
      rw [hresolve, h.teleport_eq hn] at hr
      cases hwalk with
      | stop hchase =>
        obtain ⟨rfl, -⟩ := List.cons_eq_cons.mp hnames
        have hat : s.graph.chase left n = some (left - k, d) := chase_eq_some.mpr
          ⟨Nat.sub_le .., by rwa [Nat.sub_sub_self hk]⟩
        rw [hat] at hr
        dsimp only at hr
        cases hfind : s.finddir d token with
        | none => simp [hfind] at hr
        | some found =>
          obtain ⟨s₁, found⟩ := found
          obtain ⟨rfl, hmiss⟩ | ⟨-, hmade⟩ := VfsTreeState.finddir_cases hfind
          · exact absurd hfat hmiss
          · rw [hfind] at hr
            cases found with
            | none =>
              cases hr
              exact hmade
            | some b =>
              obtain ⟨child, hnot, hchild⟩ := hmade
              exact ⟨child, hnot, VfsTreeState.resolve_grows hr child hchild⟩
      | @enter _ b e _ y names i j hchase hlookup hwalk =>
        obtain ⟨rfl, hrestNames⟩ := List.cons_eq_cons.mp hnames
        have hat : s.graph.chase left n = some (left - i, e) := chase_eq_some.mpr
          ⟨Nat.sub_le .., by rwa [Nat.sub_sub_self (by omega)]⟩
        have hmem := h.chase_mem hn hchase
        have hmiss : ¬s.FatFound e token := by
          rintro ⟨hkind, -⟩
          simp [VfsTreeState.graph, hkind] at hlookup
        rw [hat] at hr
        dsimp only at hr
        rw [h.finddir_eq hmem hmiss, hlookup] at hr
        exact ih _ (by omega) (h.lookup_spec hmem hlookup).1
          ⟨names, x, tail, j, d, hrestNames, by omega, hwalk, hfat⟩ hr rfl

theorem TreeOk.findnode_makes {s s' : VfsTreeState} {tree : Ptr → Prop} (h : TreeOk s tree)
    {path : List Nat} {r : Option Ptr} (hmakes : s.MakesNode path)
    (hr : vfsFindnode s path = some (s', r)) :
    s.Grows s' ∧ ∃ child, ¬s.Node child ∧ s'.Node child := by
  obtain ⟨rest, rfl, hrest⟩ := hmakes
  rw [vfsFindnode, if_neg (not_not_intro rfl)] at hr
  by_cases hroot : rest = []
  · subst hroot
    exact absurd hrest (s.not_makes_nil _ _)
  · rw [if_neg hroot] at hr
    exact h.resolve_makes h.root hrest hr

/-- The same tree, up to what `SameObjects` leaves open. -/
structure SameTree (s s' : VfsTreeState) : Prop where
  objects : SameObjects s.toVfsState s'.toVfsState
  root : s'.root = s.root
  links : s'.links = s.links
  fatNodes : s'.fatNodes = s.fatNodes
  fatDir : s'.fatDir = s.fatDir

namespace SameTree

variable {s s' s'' : VfsTreeState} {tree : Ptr → Prop}

theorem refl (s : VfsTreeState) : SameTree s s :=
  ⟨.refl _, rfl, rfl, rfl, rfl⟩

theorem trans (h : SameTree s s') (h' : SameTree s' s'') : SameTree s s'' where
  objects := by
    obtain ⟨status, table, files, nodes, data⟩ := h'.objects
    exact ⟨status.trans h.objects.status, table.trans h.objects.table,
      files.trans h.objects.files, fun n => (nodes n).trans (h.objects.nodes n),
      fun p => (data p).trans (h.objects.data p)⟩
  root := h'.root.trans h.root
  links := h'.links.trans h.links
  fatNodes := h'.fatNodes.trans h.fatNodes
  fatDir := h'.fatDir.trans h.fatDir

theorem node_iff (h : SameTree s s') (n : Ptr) : s'.Node n ↔ s.Node n := by
  unfold VfsTreeState.Node
  rw [← Option.isSome_map (f := VfsNode.fixed), h.objects.nodes, Option.isSome_map]

theorem bind_privateData (h : SameTree s s') (n : Ptr) :
    ((s'.nodes n).bind fun node => node.privateData) =
      (s.nodes n).bind fun node => node.privateData := by
  have hmap := congrArg (fun o => Option.bind o VfsNode.privateData) (h.objects.nodes n)
  simpa [Option.bind_map, Function.comp_def, VfsNode.fixed] using hmap

theorem graph (h : SameTree s s') : s'.graph = s.graph := by
  have hfixed : ∀ o : Option VfsNode, ((o.map VfsNode.fixed).any fun node =>
      node.flags &&& fsMountpoint ≠ 0) = o.any fun node => node.flags &&& fsMountpoint ≠ 0 := by
    intro o
    cases o <;> rfl
  have hmount : ∀ n, ((s'.nodes n).any fun node => node.flags &&& fsMountpoint ≠ 0) =
      (s.nodes n).any fun node => node.flags &&& fsMountpoint ≠ 0 := by
    intro n
    rw [← hfixed, h.objects.nodes, hfixed]
  have hchildren : ∀ n, s'.children n = s.children n := by
    intro n
    unfold VfsTreeState.children
    rw [h.links]
  unfold VfsTreeState.graph
  simp only [hmount, hchildren, h.links]

theorem fatFound_iff (h : SameTree s s') (n : Ptr) (x : List Nat) :
    s'.FatFound n x ↔ s.FatFound n x := by
  unfold VfsTreeState.FatFound VfsTreeState.fatData
  rw [h.bind_privateData, h.links, h.fatNodes, h.fatDir]

theorem makesNode_iff (h : SameTree s s') (path : List Nat) :
    s'.MakesNode path ↔ s.MakesNode path := by
  unfold VfsTreeState.MakesNode VfsTreeState.Makes
  simp only [h.graph, h.fatFound_iff, h.root]

theorem treeOk (h : SameTree s s') (hok : TreeOk s tree) : TreeOk s' tree where
  root := h.root ▸ hok.root
  node n hn := (h.node_iff n).mpr (hok.node n hn)
  children n hn := by
    obtain ⟨l, hl, hmem⟩ := hok.children n hn
    refine ⟨l, ?_, hmem⟩
    unfold VfsTreeState.Children
    rw [h.links]
    exact hl
  mount n m hn hm := hok.mount n m hn (h.links ▸ hm)
  fat n node p hn hfat hnode hpriv := by
    obtain ⟨old, hold, hfixed⟩ := h.objects.node hnode
    rw [h.fatNodes]
    exact hok.fat n old p hn (h.links ▸ hfat) hold ((VfsNode.fixed_eq hfixed).2.2.1 ▸ hpriv)

end SameTree

/-- Closing a descriptor that was just made undoes the end of `sys_open`. -/
theorem close_opened {s : VfsState} (task : TaskId) (i : Fd) {n of : Ptr} {node : VfsNode}
    (flags : Nat) (hnode : s.nodes n = some node) (hlinked : node.isUnlinked = false)
    (hslot : s.fdTable (task, i) = none) (hof : s.files of = none) :
    vfsCloseFd (s.opened task i n node flags of) task i = some (s, 0) := by
  unfold vfsCloseFd
  rw [fdIndex_coe]
  dsimp only
  have hfd : (s.opened task i n node flags of).fdTable (task, i) = some of :=
    Function.update_self ..
  have hfile : (s.opened task i n node flags of).files of = some ⟨n, 0, flags, 1⟩ :=
    Function.update_self ..
  rw [hfd]
  dsimp only
  rw [hfile]
  dsimp only [Option.bind_eq_bind, Option.bind_some]
  rw [if_pos (by decide)]
  have hput : (((s.opened task i n node flags of).setSlot (task, i) none).putNode n) =
      some ((((s.opened task i n node flags of).setSlot (task, i) none)).setNode n (some node)) := by
    unfold VfsState.putNode
    have hopened : ((s.opened task i n node flags of).setSlot (task, i) none).nodes n =
        some { node with refCount := succ32 node.refCount } := Function.update_self ..
    rw [hopened]
    dsimp only [Option.bind_eq_bind, Option.bind_some]
    rw [pred32_succ32, if_neg (by simp [hlinked])]
  rw [hput, Option.bind_some]
  unfold VfsState.opened VfsState.setSlot VfsState.setFile VfsState.setNode
  dsimp only
  have hnodes : Function.update s.nodes n (some node) = s.nodes := by
    rw [← hnode, Function.update_eq_self]
  have hfiles : Function.update s.files of none = s.files := by
    rw [← hof, Function.update_eq_self]
  have htable : Function.update s.fdTable (task, i) none = s.fdTable := by
    rw [← hslot, Function.update_eq_self]
  rw [Function.update_idem, Function.update_idem, Function.update_idem, hnodes, hfiles, htable]

/-- Opening a node of the tree returns. -/
theorem openAt_returns {s : VfsTreeState} {n : Ptr} {node : VfsNode} (task : TaskId) (flags : Nat)
    (hnode : s.nodes n = some node) : ∃ s₁ fd, s.openAt task n flags = some (s₁, fd) := by
  obtain ⟨node', -, heq⟩ := openNode_eq task flags s.kmalloc.2 hnode
  have hopen : s.openAt task n flags = (openNode s.toVfsState task n flags s.kmalloc.2).map
      (fun r => ({ s.kmalloc.1 with toVfsState := r.1 }, r.2)) := rfl
  rw [hopen, heq]
  split_ifs
  · exact ⟨_, _, rfl⟩
  · exact ⟨_, _, rfl⟩
  · cases s.kmalloc.2 with
    | none => exact ⟨_, _, rfl⟩
    | some of => cases s.freeFd task <;> exact ⟨_, _, rfl⟩

/-- Opening a node that has not been unlinked fails and changes no object, or gives a descriptor
whose closing leaves the objects as they were before. -/
theorem openAt_close {s s₁ : VfsTreeState} {task : TaskId} {n : Ptr} {node : VfsNode} {flags : Nat}
    {fd : Int} (hnode : s.nodes n = some node) (hlinked : node.isUnlinked = false)
    (h : s.openAt task n flags = some (s₁, fd)) :
    (fd < 0 ∧ SameTree s s₁) ∨
      (0 ≤ fd ∧ ∃ s₂, s₁.closeFd task fd = some (s₂, 0) ∧ SameTree s s₂) := by
  obtain ⟨node', hnode', heq⟩ := openNode_eq task flags s.kmalloc.2 hnode
  have hsame := openCallback_same flags hnode
  have hopen : (openNode s.toVfsState task n flags s.kmalloc.2).map
      (fun r => ({ s.kmalloc.1 with toVfsState := r.1 }, r.2)) = some (s₁, fd) := h
  have hacces : -vfsEAcces < 0 := by decide
  have hnomem : -vfsENoMem < 0 := by decide
  rw [heq] at hopen
  split_ifs at hopen
  · cases hopen
    exact Or.inl ⟨hacces, .refl _, rfl, rfl, rfl, rfl⟩
  · cases hopen
    exact Or.inl ⟨hacces, hsame, rfl, rfl, rfl, rfl⟩
  · cases hmalloc : s.kmalloc.2 with
    | none =>
      rw [hmalloc] at hopen
      cases hopen
      exact Or.inl ⟨hnomem, hsame, rfl, rfl, rfl, rfl⟩
    | some of =>
      rw [hmalloc] at hopen
      cases hfd : s.freeFd task with
      | none =>
        rw [hfd] at hopen
        cases hopen
        exact Or.inl ⟨hnomem, hsame, rfl, rfl, rfl, rfl⟩
      | some i =>
        rw [hfd] at hopen
        cases hopen
        have hfree : s.files of = none := by
          have hlive := (VfsTreeState.kmalloc_eq (Prod.ext rfl hmalloc)).2
          unfold VfsTreeState.live at hlive
          simp only [Bool.or_eq_false_iff] at hlive
          simpa using hlive.1.1.1
        have hunlinked : node'.isUnlinked = false := by
          obtain ⟨old, hold, hfixed⟩ := hsame.node hnode'
          obtain rfl := Option.some.inj (hnode.symm.trans hold)
          rw [(VfsNode.fixed_eq hfixed).2.2.2.2, hlinked]
        have hclose := close_opened task i flags hnode' hunlinked
          (by rw [hsame.table]; exact freeFd_eq_some hfd) (by rw [hsame.files]; exact hfree)
        refine Or.inr ⟨Int.natCast_nonneg _, { s.kmalloc.1 with
          toVfsState := (s.openCallback n node flags).1 }, ?_, hsame, rfl, rfl, rfl, rfl⟩
        unfold VfsTreeState.closeFd
        dsimp only
        rw [hclose]
        rfl

end EnclaveOS
