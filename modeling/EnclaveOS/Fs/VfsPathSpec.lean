import EnclaveOS.Foundation.PathWalk
import EnclaveOS.Fs.VfsPath

/-!
# VfsPathSpec - path resolution component by component

What `vfs_findnode` computes in a tree whose directories are searched by name: the walk of
`PathGraph` along the components of the path.  Two slips separate the code from it.  A
component of more than 255 characters is not looked up whole but in pieces, and the path of a
single slash names the root even when a file system is mounted on it.
-/

namespace EnclaveOS

open PathGraph

namespace VfsTreeState

/-- A node that is not freed. -/
def Node (s : VfsTreeState) (n : Ptr) : Prop := (s.nodes n).isSome

/-- The mounts and the children of a tree, as a graph whose edges are named. -/
def graph (s : VfsTreeState) : PathGraph Ptr Nat where
  isMount n := (s.nodes n).any fun node => node.flags &&& fsMountpoint ≠ 0
  mountNode n := (s.links n).mountpointNode
  lookup n name :=
    if (s.links n).finddir = some .generic then
      (s.children n).bind fun l => l.find? fun c => (s.links c).name = name
    else none

/-- The list of the children of a node. -/
def Children (s : VfsTreeState) (n : Ptr) (l : List Ptr) : Prop :=
  Threaded (fun c => (s.links c).nextSibling) (s.links n).firstChild l

theorem children_eq_some {s : VfsTreeState} {n : Ptr} {l : List Ptr} :
    s.children n = some l ↔ s.Children n l := by
  unfold children Children
  rw [chainFrom_eq_some]
  constructor
  · exact And.left
  · intro h
    refine ⟨h, ?_⟩
    have hcard := h.nodup.length_le_card
    rwa [Fintype.card_fin] at hcard

/-- The data of a FAT directory. -/
def fatData (s : VfsTreeState) (n : Ptr) : Option FatNodeData :=
  ((s.nodes n).bind fun node => node.privateData).bind s.fatNodes

/-- A FAT directory on whose disk there is an entry of this name. -/
def FatFound (s : VfsTreeState) (n : Ptr) (name : List Nat) : Prop :=
  (s.links n).finddir = some .fat32 ∧
    ∃ data, s.fatData n = some data ∧ (s.fatDir data.startCluster name).isSome

/-- The names lead, through at most `left` mounts, into a FAT directory that has the next
one. -/
def Makes (s : VfsTreeState) (left : Nat) (n : Ptr) (names : List (List Nat)) : Prop :=
  ∃ pre x rest k d, names = pre ++ x :: rest ∧ k ≤ left ∧ s.graph.Walk n pre k d ∧ s.FatFound d x

end VfsTreeState

/-- The nodes that paths can reach, with the pointers between them intact. -/
structure TreeOk (s : VfsTreeState) (tree : Ptr → Prop) : Prop where
  root : tree s.root
  node : ∀ n, tree n → s.Node n
  children : ∀ n, tree n → ∃ l, s.Children n l ∧ ∀ c ∈ l, tree c
  mount : ∀ n m, tree n → (s.links n).mountpointNode = some m → tree m
  fat : ∀ n node p, tree n → (s.links n).finddir = some .fat32 → s.nodes n = some node →
    node.privateData = some p → (s.fatNodes p).isSome

namespace TreeOk

variable {s : VfsTreeState} {tree : Ptr → Prop} {n m : Ptr} {name : List Nat}

theorem children_eq (h : TreeOk s tree) (hn : tree n) :
    ∃ l, s.children n = some l ∧ ∀ c ∈ l, tree c := by
  obtain ⟨l, hl, hnodes⟩ := h.children n hn
  exact ⟨l, VfsTreeState.children_eq_some.mpr hl, hnodes⟩

/-- A lookup finds a node whose name is the one looked up. -/
theorem lookup_spec (h : TreeOk s tree) (hn : tree n) (hm : s.graph.lookup n name = some m) :
    tree m ∧ (s.links m).name = name := by
  obtain ⟨l, hl, hnodes⟩ := h.children_eq hn
  simp only [VfsTreeState.graph, hl, Option.bind_some] at hm
  split_ifs at hm
  exact ⟨hnodes m (List.mem_of_find?_eq_some hm), by simpa using List.find?_some hm⟩

/-- The callback of a node is the lookup by name, unless it finds an entry on a disk. -/
theorem finddir_eq (h : TreeOk s tree) (hn : tree n) (hno : ¬s.FatFound n name) :
    s.finddir n name = some (s, s.graph.lookup n name) := by
  obtain ⟨l, hl, -⟩ := h.children_eq hn
  obtain ⟨node, hnode⟩ := Option.isSome_iff_exists.mp (h.node n hn)
  unfold VfsTreeState.finddir
  simp only [VfsTreeState.graph, hl, Option.bind_some]
  cases hfind : (s.links n).finddir with
  | none => rfl
  | some kind =>
    cases kind with
    | generic => simp [VfsTreeState.vfsGenericFinddir, hl]
    | fat32 =>
      unfold VfsTreeState.fat32Finddir
      rw [hnode]
      dsimp only [Option.bind_eq_bind, Option.bind_some]
      cases hpriv : node.privateData with
      | none => rfl
      | some p =>
        obtain ⟨data, hdata⟩ := Option.isSome_iff_exists.mp (h.fat n node p hn hfind hnode hpriv)
        have hmiss : s.fatDir data.startCluster name = none := by
          rw [← Option.not_isSome_iff_eq_none]
          exact fun hhit => hno ⟨hfind, data, by simp [VfsTreeState.fatData, hnode, hpriv, hdata], hhit⟩
        simp [hdata, hmiss]

/-- Following mounts is the chase of the graph. -/
theorem teleport_eq (h : TreeOk s tree) (hn : tree n) (left : Nat) :
    s.teleport left n = some (s.graph.chase left n) := by
  induction left generalizing n with
  | zero =>
    obtain ⟨node, hnode⟩ := Option.isSome_iff_exists.mp (h.node n hn)
    simp [VfsTreeState.teleport, chase, VfsTreeState.graph, hnode]
  | succ left ih =>
    obtain ⟨node, hnode⟩ := Option.isSome_iff_exists.mp (h.node n hn)
    rw [VfsTreeState.teleport, chase, hnode, Option.bind_some]
    simp only [VfsTreeState.graph, hnode, Option.any_some, decide_eq_true_eq]
    by_cases hmount : node.flags &&& fsMountpoint ≠ 0
    · rw [if_pos hmount, if_pos hmount]
      cases htarget : (s.links n).mountpointNode with
      | none => rfl
      | some target => exact ih (h.mount n target hn htarget)
    · rw [if_neg hmount, if_neg hmount]

theorem chase_mem (h : TreeOk s tree) {k : Nat} (hn : tree n) (hm : s.graph.Chase n k m) :
    tree m := by
  induction hm with
  | here => exact hn
  | hop _ htarget _ ih => exact ih (h.mount _ _ hn htarget)

theorem walk_mem (h : TreeOk s tree) {k : Nat} {names : List (List Nat)} (hn : tree n)
    (hm : s.graph.Walk n names k m) : tree m := by
  induction hm with
  | stop hchase => exact h.chase_mem hn hchase
  | enter hd hb _ ih => exact ih (h.lookup_spec (h.chase_mem hn hd) hb).1

end TreeOk

/-- What the loop of `vfs_findnode` does in one round, on a path with a component left. -/
theorem resolve_step (s : VfsTreeState) (left : Nat) (n : Ptr) (path : List Nat) :
    ((pieces (vfsMaxFilename - 1) slash path = [] ∧
        s.resolve left n path = (s.teleport left n).map fun r => (s, r.map Prod.snd)) ∨
      ∃ token rest, rest.length < path.length ∧
        pieces (vfsMaxFilename - 1) slash path =
          token :: pieces (vfsMaxFilename - 1) slash rest ∧
        s.resolve left n path =
          match s.teleport left n with
          | none => none
          | some none => some (s, none)
          | some (some (left, current)) =>
            match s.finddir current token with
            | none => none
            | some (s, none) => some (s, none)
            | some (s, some current) => s.resolve left current rest) := by
  have hskip : pieces (vfsMaxFilename - 1) slash path =
      pieces (vfsMaxFilename - 1) slash (path.dropWhile fun c => c = slash) := by
    rw [pieces, pieces, components_dropWhile]
  rw [VfsTreeState.resolve, hskip]
  split
  · rename_i hpath
    rw [hpath]
    exact Or.inl ⟨rfl, rfl⟩
  · rename_i c cs hpath
    have hc : c ≠ slash := by
      intro hc
      have hhead := List.head_dropWhile_not (fun c => decide (c = slash)) (l := path)
        (by simp [hpath])
      simp [hpath, hc] at hhead
    have hle : (c :: cs).length ≤ path.length := by
      rw [← hpath]
      exact (List.dropWhile_sublist _).length_le
    have htoken : 0 < (((c :: cs).takeWhile fun c => c ≠ slash).take
        (vfsMaxFilename - 1)).length := by
      rw [List.takeWhile_cons_of_pos (by simpa using hc)]
      simp [vfsMaxFilename]
    right
    refine ⟨_, _, ?_, ?_, rfl⟩
    · rw [List.length_drop]
      simp only [List.length_cons] at hle ⊢
      omega
    · rw [hpath]
      exact pieces_step (by decide) hc

/-- The loop of `vfs_findnode` walks along the pieces of the path, unless it finds an entry on
a disk. -/
theorem TreeOk.resolve_eq {s : VfsTreeState} {tree : Ptr → Prop} (h : TreeOk s tree) {n : Ptr}
    (hn : tree n) (left : Nat) (path : List Nat)
    (hno : ¬s.Makes left n (pieces (vfsMaxFilename - 1) slash path)) :
    s.resolve left n path =
      some (s, s.graph.walk left n (pieces (vfsMaxFilename - 1) slash path)) := by
  induction hlen : path.length using Nat.strong_induction_on generalizing left n path with
  | h len ih =>
    obtain ⟨hempty, hresolve⟩ | ⟨token, rest, hrest, hpieces, hresolve⟩ :=
      resolve_step s left n path
    · rw [hresolve, hempty, walk, h.teleport_eq hn]
      rfl
    · rw [hresolve, hpieces, walk, h.teleport_eq hn]
      cases hchase : s.graph.chase left n with
      | none => rfl
      | some r =>
        obtain ⟨left', d⟩ := r
        obtain ⟨hleft, hd⟩ := chase_eq_some.mp hchase
        have hmiss : ¬s.FatFound d token := fun hhit =>
          hno ⟨[], token, _, left - left', d, hpieces, Nat.sub_le .., .stop hd, hhit⟩
        rw [Option.bind_some]
        dsimp only
        rw [h.finddir_eq (h.chase_mem hn hd) hmiss]
        cases hlookup : s.graph.lookup d token with
        | none => rfl
        | some b =>
          rw [Option.bind_some]
          refine ih _ (by omega) (h.lookup_spec (h.chase_mem hn hd) hlookup).1 left' rest ?_ rfl
          rintro ⟨pre, x, tail, k, e, hnames, hk, hwalk, hhit⟩
          exact hno ⟨token :: pre, x, tail, left - left' + k, e, by rw [hpieces, hnames]; rfl,
            by omega, .enter hd hlookup hwalk, hhit⟩

/-- A tree of nodes with lookup by name, and any mounts between them. -/
structure NameTree where
  state : VfsTreeState
  rootNode : state.Node state.root
  childNodes : ∀ n, state.Node n → ∃ l, state.Children n l ∧ ∀ c ∈ l, state.Node c
  mountNodes : ∀ n m, state.Node n → (state.links n).mountpointNode = some m → state.Node m
  nameFits : ∀ n, state.Node n → (state.links n).name.length < vfsMaxFilename
  byName : ∀ n, state.Node n → (state.links n).finddir ≠ some .fat32

namespace NameTree

variable (t : NameTree)

theorem ok : TreeOk t.state t.state.Node where
  root := t.rootNode
  node _ := id
  children := t.childNodes
  mount := t.mountNodes
  fat n _ _ hn hfat := absurd hfat (t.byName n hn)

/-- The loop of `vfs_findnode` walks along the pieces of the path. -/
theorem resolve_eq (left : Nat) (path : List Nat) :
    t.state.resolve left t.state.root path =
      some (t.state,
        t.state.graph.walk left t.state.root (pieces (vfsMaxFilename - 1) slash path)) := by
  apply t.ok.resolve_eq t.rootNode
  rintro ⟨pre, x, rest, k, d, -, -, hwalk, hfat, -⟩
  exact t.byName d (t.ok.walk_mem t.rootNode hwalk) hfat

/-- A component that fits no name is found nowhere. -/
theorem walk_fits {n e : Ptr} {names : List (List Nat)} {k : Nat} (hn : t.state.Node n)
    (h : t.state.graph.Walk n names k e) : ∀ x ∈ names, x.length < vfsMaxFilename := by
  induction h with
  | stop => simp
  | enter hd hb _ ih =>
    obtain ⟨hnode, hname⟩ := t.ok.lookup_spec (t.ok.chase_mem hn hd) hb
    refine List.forall_mem_cons.mpr ⟨?_, ih hnode⟩
    rw [← hname]
    exact t.nameFits _ hnode

end NameTree

/-- The call returns, and finds the node that the components of the path lead to through at most
`MAX_MOUNT_HOPS` mounts, the final node replaced by its mount target. -/
def FindsByComponents (t : NameTree) (path : List Nat) : Prop :=
  ∃ r, vfsFindnode t.state path = some (t.state, r) ∧
    ∀ e, r = some e ↔
      ∃ k ≤ maxMountHops, t.state.graph.Walk t.state.root (components slash path) k e

/-- Resolution goes by components unless the path is a single slash and the root a mount point, or
a component is longer than a name can be and the path names a node once it is cut. -/
theorem findnode_components_iff (t : NameTree) (path : List Nat) :
    FindsByComponents t (slash :: path) ↔
      (path = [] → t.state.graph.isMount t.state.root = false) ∧
      ((∀ x ∈ components slash path, x.length < vfsMaxFilename) ∨
        ¬∃ k ≤ maxMountHops, ∃ e,
          t.state.graph.Walk t.state.root (pieces (vfsMaxFilename - 1) slash path) k e) := by
  unfold FindsByComponents
  rw [vfsFindnode, if_neg (not_not_intro rfl), components_cons_sep]
  by_cases hroot : path = []
  · subst hroot
    rw [if_pos rfl]
    simp only [components_nil, List.not_mem_nil, false_imp_iff, implies_true, true_or, and_true]
    constructor
    · rintro ⟨r, hr, hspec⟩ -
      cases hr
      obtain ⟨k, -, hwalk⟩ := (hspec t.state.root).mp rfl
      cases hwalk with
      | stop hchase => exact hchase.not_mount
    · intro hmount
      refine ⟨_, rfl, fun e => ?_⟩
      rw [Option.some.injEq]
      constructor
      · rintro rfl
        exact ⟨0, Nat.zero_le _, .stop (.here (hmount trivial))⟩
      · rintro ⟨k, -, hwalk⟩
        cases hwalk with
        | stop hchase => exact (hchase.eq_of_not_mount (hmount trivial)).symm
  · rw [if_neg hroot, t.resolve_eq]
    have hpath : path = [] → t.state.graph.isMount t.state.root = false := fun h => absurd h hroot
    rw [and_iff_right hpath]
    constructor
    · rintro ⟨r, hr, hspec⟩
      cases hr
      by_cases hfits : ∀ x ∈ components slash path, x.length < vfsMaxFilename
      · exact Or.inl hfits
      · right
        rintro ⟨k, hk, e, hwalk⟩
        obtain ⟨j, -, hwhole⟩ := (hspec e).mp (walk_eq_some.mpr ⟨k, hk, hwalk⟩)
        exact hfits (t.walk_fits t.rootNode hwhole)
    · intro hcond
      refine ⟨_, rfl, fun e => ?_⟩
      rcases Classical.em (∀ x ∈ components slash path, x.length < vfsMaxFilename) with
        hfits | hlong
      · have hshort : ∀ x ∈ components slash path, x.length ≤ vfsMaxFilename - 1 :=
          fun x hx => Nat.le_pred_of_lt (hfits x hx)
        rw [pieces_eq_components hshort, walk_eq_some]
      · rw [walk_eq_some]
        have hnone := hcond.resolve_left hlong
        apply iff_of_false
        · rintro ⟨k, hk, hwalk⟩
          exact hnone ⟨k, hk, e, hwalk⟩
        · rintro ⟨k, -, hwalk⟩
          exact hlong (t.walk_fits t.rootNode hwalk)

/-- Directories 0 to 2, each with its name, its only child and its mount target. -/
def threeDirs (entry : Ptr → List Nat × Option Ptr × Option Ptr) : VfsTreeState where
  status _ := .dead
  fdTable _ := none
  files _ := none
  nodes n :=
    if n < 3 then
      some ⟨0, if (entry n).2.2.isSome then fsDirectory ||| fsMountpoint else fsDirectory, .other,
        none, 0, false⟩
    else none
  fileData _ := none
  consoleOpenCount := 0
  root := 0
  links n := ⟨(entry n).1, (entry n).2.1, none, (entry n).2.2, some .generic, false⟩
  fatNodes _ := none
  fatDir _ _ := none
  outcomes _ := none
  mallocs := 0

theorem threeDirs_node {entry : Ptr → List Nat × Option Ptr × Option Ptr} {n : Ptr} :
    (threeDirs entry).Node n ↔ n < 3 := by
  unfold VfsTreeState.Node threeDirs
  dsimp only
  split_ifs with h <;> simp [h]

theorem threeDirs_lookup {entry : Ptr → List Nat × Option Ptr × Option Ptr} {n c : Ptr}
    {x : List Nat} (hc : (entry n).2.1 = some c) (hx : (entry c).1 = x) :
    (threeDirs entry).graph.lookup n x = some c := by
  have hlist : (threeDirs entry).children n = some [c] :=
    VfsTreeState.children_eq_some.mpr ⟨hc, rfl⟩
  simp only [VfsTreeState.graph, hlist, Option.bind_some]
  simp [threeDirs, hx]

/-- The tree of three directories, when the pointers stay among them. -/
def threeDirsTree (entry : Ptr → List Nat × Option Ptr × Option Ptr)
    (hchild : ∀ n c, (entry n).2.1 = some c → c < 3) (hmount : ∀ n m, (entry n).2.2 = some m → m < 3)
    (hname : ∀ n, (entry n).1.length < vfsMaxFilename) : NameTree where
  state := threeDirs entry
  rootNode := threeDirs_node.mpr (show (0 : Ptr) < 3 by decide)
  childNodes n _ := by
    unfold VfsTreeState.Children
    cases hc : (entry n).2.1 with
    | none => exact ⟨[], hc, by simp⟩
    | some c =>
      refine ⟨[c], ⟨hc, rfl⟩, fun d hd => ?_⟩
      rw [List.mem_singleton.mp hd]
      exact threeDirs_node.mpr (hchild n c hc)
  mountNodes n m _ h := threeDirs_node.mpr (hmount n m h)
  nameFits n _ := hname n
  byName _ _ := by simp [threeDirs]

/-- A file system mounted on the root. -/
def mountedRoot : NameTree :=
  threeDirsTree (fun n => if n = 0 then ([slash], none, some 1) else ([97], none, none))
    (by intro n c h; split_ifs at h)
    (by
      intro n m h
      split_ifs at h
      cases h
      decide)
    (by intro n; split_ifs <;> decide)

/-- The longest name there is. -/
def longName : List Nat := List.replicate 255 97

/-- A directory with the longest name there is, and one of a single character in it. -/
def longNamesEntry (n : Ptr) : List Nat × Option Ptr × Option Ptr :=
  if n = 0 then ([slash], some 1, none)
  else if n = 1 then (longName, some 2, none)
  else ([98], none, none)

@[simp] theorem longNamesEntry_zero : longNamesEntry 0 = ([slash], some 1, none) := rfl
@[simp] theorem longNamesEntry_one : longNamesEntry 1 = (longName, some 2, none) := rfl
@[simp] theorem longNamesEntry_two : longNamesEntry 2 = ([98], none, none) := rfl

/-- The tree of these directories. -/
def longNames : NameTree :=
  threeDirsTree longNamesEntry
    (by
      intro n c h
      unfold longNamesEntry at h
      split_ifs at h
      · cases h
        decide
      · cases h
        decide)
    (by
      intro n m h
      unfold longNamesEntry at h
      split_ifs at h)
    (by
      intro n
      unfold longNamesEntry
      split_ifs
      · decide
      · exact (List.length_replicate : longName.length = 255).trans_lt (by decide)
      · decide)

theorem components_longName : components slash (longName ++ [98]) = [longName ++ [98]] := by
  have hsep : slash ∉ longName := fun h => absurd (List.eq_of_mem_replicate h) (by decide)
  have hwhole : components slash (longName ++ [98] ++ []) = [longName ++ [98]] :=
    components_append (by simp) (by simpa [slash] using hsep) (Or.inl rfl)
  rwa [List.append_nil] at hwhole

theorem pieces_longName :
    pieces (vfsMaxFilename - 1) slash (longName ++ [98]) = [longName, [98]] := by
  have hlen : longName.length = vfsMaxFilename - 1 := List.length_replicate
  rw [pieces, components_longName, List.flatMap_singleton, cutName_first (by decide) (by simp),
    List.take_left' hlen, List.drop_left' hlen, cutName_short (by simp) (by decide)]

/-- The path of the root skips a mount, and a name of 256 characters is found in two parts. -/
theorem findnode_not_by_components :
    ¬FindsByComponents mountedRoot [slash] ∧
      ¬FindsByComponents longNames (slash :: (longName ++ [98])) := by
  constructor
  · rintro ⟨r, hr, hspec⟩
    cases hr
    obtain ⟨k, -, hwalk⟩ := (hspec mountedRoot.state.root).mp rfl
    cases hwalk with
    | stop hchase => exact absurd hchase.not_mount (by decide)
  · rintro ⟨r, hr, hspec⟩
    have hfirst : longNames.state.graph.lookup 0 longName = some 1 :=
      threeDirs_lookup (by simp) (by simp)
    have hsecond : longNames.state.graph.lookup 1 [98] = some 2 :=
      threeDirs_lookup (by simp) (by simp)
    have hcut : longNames.state.graph.Walk 0 [longName, [98]] (0 + (0 + 0)) 2 :=
      .enter (.here (by decide)) hfirst
        (.enter (.here (by decide)) hsecond (.stop (.here (by decide))))
    rw [vfsFindnode, if_neg (not_not_intro rfl), if_neg (by simp),
      longNames.resolve_eq, pieces_longName] at hr
    obtain ⟨-, rfl⟩ := Prod.mk.inj (Option.some.inj hr)
    have hcode : longNames.state.graph.walk maxMountHops 0 [longName, [98]] = some 2 :=
      walk_eq_some.mpr ⟨0 + (0 + 0), by decide, hcut⟩
    obtain ⟨k, -, hwalk⟩ := (hspec 2).mp hcode
    rw [components_cons_sep, components_longName] at hwalk
    have hfits := longNames.walk_fits longNames.rootNode hwalk _ (List.mem_singleton_self _)
    have hlen : longName.length = 255 := List.length_replicate
    rw [List.length_append, hlen] at hfits
    exact absurd hfits (by decide)

end EnclaveOS
