import EnclaveOS.Foundation.PathWalk
import EnclaveOS.Fs.InitrdSpec

/-!
# InitrdTree - looking up files in the mounted tree

`vfs_findnode` in the tree that mounting leaves, and what its nodes are: a path belongs to the
first entry that makes it.  Its node is a file when the entry is the one of this file, and a
directory otherwise.
-/

namespace EnclaveOS

namespace TreeNode

/-- `FS_DIRECTORY` is set: the node has the callback `finddir`. -/
def IsDirectory (n : TreeNode) : Prop := n.flags &&& fsDirectory ≠ 0

/-- `FS_FILE` is set. -/
def IsFile (n : TreeNode) : Prop := n.flags &&& fsFile ≠ 0

instance (n : TreeNode) : Decidable n.IsDirectory := inferInstanceAs (Decidable (_ ≠ _))
instance (n : TreeNode) : Decidable n.IsFile := inferInstanceAs (Decidable (_ ≠ _))

end TreeNode

namespace VfsTree

/-- `current->finddir(current, token)`. -/
def finddir (t : VfsTree) (current : Nat) (token : List Nat) : Option Nat :=
  if (t[current]?).any fun n => n.IsDirectory then t.findChild current token else none

/-- A path begins with a name behind its slashes. -/
theorem ne_slash_of_dropWhile {path : List Nat} {c : Nat} {cs : List Nat}
    (h : (path.dropWhile fun c => c = slash) = c :: cs) : c ≠ slash := by
  intro hc
  have hhead := List.head_dropWhile_not (fun c => decide (c = slash)) (l := path) (by simp [h])
  simp [h, hc] at hhead

/-- The loop of `vfs_findnode` over the path from `i` on; no node is a mount point yet. -/
def resolve (t : VfsTree) (current : Nat) (path : List Nat) : Option Nat :=
  match _h : path.dropWhile fun c => c = slash with
  | [] => some current
  | c :: cs =>
    let token := ((c :: cs).takeWhile fun c => c ≠ slash).take (vfsMaxFilename - 1)
    match t.finddir current token with
    | none => none
    | some child => resolve t child ((c :: cs).drop token.length)
termination_by path.length
decreasing_by
  have hle : (c :: cs).length ≤ path.length := by
    rw [← _h]
    exact (List.dropWhile_sublist _).length_le
  have hc := ne_slash_of_dropWhile _h
  have htoken : ((c :: cs).takeWhile fun c => c ≠ slash).take (vfsMaxFilename - 1) ≠ [] := by
    rw [List.takeWhile_cons_of_pos (by simpa using hc)]
    simp [vfsMaxFilename]
  have hpos := List.length_pos_iff.mpr htoken
  rw [List.length_drop]
  simp only [List.length_cons] at hle ⊢
  omega

/-- `vfs_findnode`. -/
def findnode (t : VfsTree) : List Nat → Option Nat
  | [] => none
  | c :: path => if c ≠ slash then none else if path = [] then some 0 else t.resolve 0 path

/-- Down along the names, through directories. -/
def descend (t : VfsTree) (current : Nat) : List (List Nat) → Option Nat
  | [] => some current
  | name :: names => (t.finddir current name).bind fun child => descend t child names

variable {t : VfsTree} {current i : Nat} {name : List Nat} {names : List (List Nat)}

/-- The loop goes down along the names of the path. -/
theorem resolve_eq (t : VfsTree) (current : Nat) (path : List Nat) :
    t.resolve current path = t.descend current (pieces (vfsMaxFilename - 1) slash path) := by
  have hskip : ∀ path, pieces (vfsMaxFilename - 1) slash path =
      pieces (vfsMaxFilename - 1) slash (path.dropWhile fun c => c = slash) := by
    intro path
    unfold pieces
    rw [components_dropWhile]
  fun_induction VfsTree.resolve t current path with
  | case1 current path hpath =>
    rw [hskip, hpath]
    rfl
  | case2 current path c cs hpath token hnone =>
    rw [hskip, hpath, pieces_step (by decide) (ne_slash_of_dropWhile hpath), descend, hnone]
    rfl
  | case3 current path c cs hpath token child hchild ih =>
    rw [hskip, hpath, pieces_step (by decide) (ne_slash_of_dropWhile hpath), descend, hchild, ih]
    rfl

/-- A path is found along its names. -/
theorem findnode_eq {path : List Nat} (hshort : ∀ x ∈ components slash path, x.length ≤ 255) :
    t.findnode (slash :: path) = t.descend 0 (components slash path) := by
  rw [findnode, if_neg (by simp)]
  by_cases hpath : path = []
  · rw [if_pos hpath, hpath]
    rfl
  · have hnames : pieces (vfsMaxFilename - 1) slash path = components slash path :=
      pieces_eq_components hshort
    rw [if_neg hpath, resolve_eq, hnames]

/-- All nodes on the way to a path are directories. -/
def Open (t : VfsTree) (names : List (List Nat)) : Prop :=
  ∀ before x after, names = before ++ x :: after → ∃ k n, t.lookup 0 before = some k ∧
    t[k]? = some n ∧ n.IsDirectory

theorem finddir_eq_some {child : Nat} : t.finddir current name = some child ↔
    (∃ n, t[current]? = some n ∧ n.IsDirectory) ∧ t.findChild current name = some child := by
  unfold finddir
  by_cases hdir : (t[current]?).any fun n => n.IsDirectory
  · rw [if_pos hdir]
    obtain ⟨n, hn, hisDir⟩ := (Option.any_eq_true _ _).mp hdir
    exact (and_iff_right ⟨n, hn, of_decide_eq_true hisDir⟩).symm
  · rw [if_neg hdir]
    constructor
    · rintro ⟨⟩
    · rintro ⟨⟨n, hn, hisDir⟩, -⟩
      exact absurd ((Option.any_eq_true _ _).mpr ⟨n, hn, decide_eq_true hisDir⟩) hdir

/-- A path is found when its names lead to a node, through directories. -/
theorem descend_eq_some :
    t.descend 0 names = some i ↔ t.lookup 0 names = some i ∧ t.Open names := by
  induction names using List.reverseRecOn generalizing i with
  | nil =>
    constructor
    · intro h
      exact ⟨h, fun before x after hsplit => by simp at hsplit⟩
    · exact And.left
  | append_singleton names name ih =>
    have hdescend : ∀ (l : List (List Nat)) (k : Nat), t.descend k (l ++ [name]) =
        (t.descend k l).bind fun c => t.finddir c name := by
      intro l
      induction l with
      | nil =>
        intro k
        simp [descend]
      | cons y ys ih =>
        intro k
        simp only [List.cons_append, descend, ih, Option.bind_assoc]
    rw [hdescend, Option.bind_eq_some_iff, lookup_snoc, Option.bind_eq_some_iff]
    constructor
    · rintro ⟨c, hc, hchild⟩
      obtain ⟨hlookup, hopen⟩ := ih.mp hc
      obtain ⟨⟨n, hn, hdir⟩, hfind⟩ := finddir_eq_some.mp hchild
      refine ⟨⟨c, hlookup, hfind⟩, fun before x after hsplit => ?_⟩
      rcases List.eq_nil_or_concat after with rfl | ⟨after', last, rfl⟩
      · obtain ⟨rfl, -⟩ := List.append_inj' hsplit rfl
        exact ⟨c, n, hlookup, hn, hdir⟩
      · rw [List.concat_eq_append, ← List.cons_append, ← List.append_assoc] at hsplit
        obtain ⟨rfl, -⟩ := List.append_inj' hsplit rfl
        exact hopen before x after' rfl
    · rintro ⟨⟨c, hlookup, hfind⟩, hopen⟩
      have hopen' : t.Open names := by
        intro before x after hsplit
        exact hopen before x (after ++ [name]) (by rw [hsplit, List.append_assoc]; rfl)
      obtain ⟨k, n, hk, hn, hdir⟩ := hopen names name [] rfl
      obtain rfl := Option.some.inj (hk.symm.trans hlookup)
      exact ⟨k, ih.mpr ⟨hlookup, hopen'⟩, finddir_eq_some.mpr ⟨⟨n, hn, hdir⟩, hfind⟩⟩

end VfsTree

/-- A node that `get_or_create_dir` makes. -/
def TreeNode.PlainDir (n : TreeNode) : Prop := n.IsDirectory ∧ ¬n.IsFile

/-- The flag `FS_SYSTEM` says nothing about the kind of a node. -/
theorem TreeNode.isDirectory_setSystem (n : TreeNode) :
    { n with flags := n.flags ||| fsSystem }.IsDirectory ↔ n.IsDirectory := by
  unfold TreeNode.IsDirectory
  have hbit : fsSystem &&& fsDirectory = 0 := by decide
  rw [Nat.and_or_distrib_right, hbit, Nat.or_zero]

theorem TreeNode.isFile_setSystem (n : TreeNode) :
    { n with flags := n.flags ||| fsSystem }.IsFile ↔ n.IsFile := by
  unfold TreeNode.IsFile
  have hbit : fsSystem &&& fsFile = 0 := by decide
  rw [Nat.and_or_distrib_right, hbit, Nat.or_zero]

theorem TreeNode.PlainDir.setSystem {n : TreeNode} (h : n.PlainDir) :
    { n with flags := n.flags ||| fsSystem }.PlainDir :=
  ⟨n.isDirectory_setSystem.mpr h.1, mt n.isFile_setSystem.mp h.2⟩

namespace VfsTree

variable {t ds : VfsTree} {p i : Nat} {x : List Nat} {names : List (List Nat)}

theorem inherited_cases (t : VfsTree) (p : Nat) : t.inherited p = 0 ∨ t.inherited p = fsSystem := by
  unfold inherited
  split_ifs
  · exact Or.inr rfl
  · exact Or.inl rfl

theorem getOrCreateDir_append (t : VfsTree) (p : Nat) (x : List Nat) :
    ∃ ds : VfsTree, (∀ n ∈ ds, n.PlainDir) ∧ (t.getOrCreateDir p x).1 = t ++ ds := by
  unfold getOrCreateDir
  cases t.findChild p x with
  | some child => exact ⟨[], by simp, (List.append_nil t).symm⟩
  | none =>
    refine ⟨_, ?_, rfl⟩
    rw [List.forall_mem_singleton]
    unfold TreeNode.PlainDir TreeNode.IsDirectory TreeNode.IsFile
    rcases inherited_cases t p with hflags | hflags
    · dsimp only
      rw [hflags]
      decide
    · dsimp only
      rw [hflags]
      decide

theorem makeDirs_append (t : VfsTree) (p : Nat) (xs : List (List Nat)) :
    ∃ ds : VfsTree, (∀ n ∈ ds, n.PlainDir) ∧ (t.makeDirs p xs).1 = t ++ ds := by
  induction xs generalizing t p with
  | nil => exact ⟨[], by simp, (List.append_nil t).symm⟩
  | cons x xs ih =>
    obtain ⟨ds, hds, heq⟩ := getOrCreateDir_append t p x
    obtain ⟨ds', hds', heq'⟩ := ih (t.getOrCreateDir p x).1 (t.getOrCreateDir p x).2
    refine ⟨ds ++ ds', List.forall_mem_append.mpr ⟨hds, hds'⟩, ?_⟩
    rw [makeDirs]
    refine heq'.trans ?_
    rw [heq, List.append_assoc]

/-- A path that leads to an old node led there before. -/
theorem lookup_of_lt (h : VfsTree.Ok (t ++ ds)) (hi : VfsTree.lookup (t ++ ds) 0 names = some i)
    (hlt : i < t.length) : t.lookup 0 names = some i := by
  induction names using List.reverseRecOn generalizing i with
  | nil => exact hi
  | append_singleton names x ih =>
    rw [lookup_snoc, Option.bind_eq_some_iff] at hi
    obtain ⟨p, hp, hc⟩ := hi
    obtain ⟨n, hn, hparent, -⟩ := findChild_spec hc
    have hzero : i ≠ 0 := by
      rintro rfl
      have hroot := h.root
      rw [hn, Option.map_some, hparent] at hroot
      cases hroot
    obtain ⟨q, hq, hparent'⟩ := h.parent i n hn hzero
    rw [hparent, Option.some.injEq] at hparent'
    rw [lookup_snoc, ih hp (by omega), Option.bind_some]
    unfold findChild at hc ⊢
    rw [List.findIdx?_append, Option.or_eq_some_iff] at hc
    rcases hc with hold | ⟨-, hnew⟩
    · exact hold
    · obtain ⟨j, -, rfl⟩ := Option.map_eq_some_iff.mp hnew
      omega

/-- A new path leads to a new node. -/
theorem mem_of_new (h : VfsTree.Ok (t ++ ds)) (hnone : t.lookup 0 names = none)
    (hi : VfsTree.lookup (t ++ ds) 0 names = some i) : ∃ n ∈ ds, (t ++ ds)[i]? = some n := by
  have hlt := lookup_lt h hi
  have hge : t.length ≤ i := by
    by_contra hlow
    rw [lookup_of_lt h hi (by omega)] at hnone
    cases hnone
  rw [List.length_append] at hlt
  have hget : (t ++ ds)[i]? = ds[i - t.length]? := List.getElem?_append_right hge
  refine ⟨ds[i - t.length], List.getElem_mem _, ?_⟩
  rw [hget, List.getElem?_eq_getElem (by omega)]

end VfsTree

/-- Paths that are not on the way are left alone. -/
theorem touchAll_of_off_path {M : List (List Nat) → Option Bool} {pre xs names : List (List Nat)}
    (h : ¬names <+: pre ++ xs) : touchAll M pre xs names = M names := by
  induction xs generalizing M pre with
  | nil => rfl
  | cons x xs ih =>
    have hsplit : pre ++ x :: xs = pre ++ [x] ++ xs := by simp
    rw [touchAll, ih (by rwa [← hsplit]), touch, if_neg]
    rintro rfl
    exact h ⟨xs, hsplit.symm⟩

/-- What stands at a path that an entry makes. -/
structure NodeFor (e : TarEntry) (names : List (List Nat)) (n : TreeNode) : Prop where
  file : e.IsFile → names = e.made → n.IsFile ∧ n.size = e.size ∧ n.data = some e.data
  dir : ¬(e.IsFile ∧ names = e.made) → n.PlainDir

open VfsTree

variable {t : VfsTree} {e : TarEntry} {es : List TarEntry} {i : Nat} {names : List (List Nat)}

theorem made_of_isFile (he : e.IsFile) : e.made = e.dirs ++ [e.file] := by
  rw [TarEntry.made, if_neg he.1, if_pos (Or.inr he.2)]

/-- The node of a regular file stands behind the directories of its path. -/
theorem mountEntry_file_append (h : t.Ok) (he : e.IsFile) :
    ∃ (ds : VfsTree) (p : Nat) (n : TreeNode), (∀ d ∈ ds, d.PlainDir) ∧
      mountEntry t e = t ++ ds ++ [n] ∧ VfsTree.Ok (t ++ ds) ∧
      VfsTree.lookup (t ++ ds) 0 e.dirs = some p ∧
      VfsTree.flagMap (t ++ ds) = touchAll t.flagMap [] e.dirs ∧
      n.parent = some p ∧ n.name = e.file ∧ n.IsFile ∧ n.size = e.size ∧ n.data = some e.data := by
  obtain ⟨hok, hlook, hmap, -⟩ := makeDirs_spec h t.lookup_root e.dirs_fit
  obtain ⟨ds, hds, heq⟩ := makeDirs_append t 0 e.dirs
  rw [List.nil_append] at hlook
  have hne : e.typeflag ≠ 53 := by
    rcases he.2 with htype | htype <;> omega
  refine ⟨ds, (t.makeDirs 0 e.dirs).2, ⟨e.file.take (vfsMaxFilename - 1),
    fsFile ||| VfsTree.inherited (t ++ ds) (t.makeDirs 0 e.dirs).2, some (t.makeDirs 0 e.dirs).2,
    e.size, some e.data⟩, hds, ?_, heq ▸ hok, heq ▸ hlook, heq ▸ hmap, rfl, e.file_fits, ?_, rfl,
    rfl⟩
  · unfold mountEntry
    rw [if_neg he.1]
    dsimp only
    rw [if_neg hne, if_pos he.2, heq]
    rfl
  · unfold TreeNode.IsFile
    rcases inherited_cases (t ++ ds) (t.makeDirs 0 e.dirs).2 with hflags | hflags
    · dsimp only
      rw [hflags]
      decide
    · dsimp only
      rw [hflags]
      decide

/-- Any other entry adds directories, and may flag one of them. -/
theorem mountEntry_dirs_append (h : t.Ok) (he : ¬e.IsFile) :
    ∃ ds : VfsTree, (∀ d ∈ ds, d.PlainDir) ∧ VfsTree.Ok (t ++ ds) ∧
      (VfsTree.lookup (t ++ ds) 0 e.made).isSome ∧
      (mountEntry t e = t ++ ds ∨ ∃ k, mountEntry t e = VfsTree.setSystem (t ++ ds) k) := by
  by_cases hpath : e.path = []
  · refine ⟨[], by simp, by rwa [List.append_nil], ?_, Or.inl ?_⟩
    · rw [TarEntry.made, if_pos hpath]
      rfl
    · unfold mountEntry
      rw [if_pos hpath, List.append_nil]
  have hnot : ¬(e.typeflag = 48 ∨ e.typeflag = 0) := fun htype => he ⟨hpath, htype⟩
  obtain ⟨hok, hlook, -, -⟩ := makeDirs_spec h t.lookup_root e.dirs_fit
  obtain ⟨ds, hds, heq⟩ := makeDirs_append t 0 e.dirs
  rw [List.nil_append] at hlook
  unfold mountEntry
  rw [if_neg hpath, TarEntry.made, if_neg hpath]
  dsimp only
  by_cases hdir : e.typeflag = 53
  · rw [if_pos hdir, if_pos (Or.inl hdir)]
    obtain ⟨hok', hlook', -, -⟩ := getOrCreateDir_spec hok hlook e.file_fits
    obtain ⟨ds', hds', heq'⟩ := getOrCreateDir_append (t.makeDirs 0 e.dirs).1
      (t.makeDirs 0 e.dirs).2 e.file
    have hall : ((t.makeDirs 0 e.dirs).1.getOrCreateDir (t.makeDirs 0 e.dirs).2 e.file).1 =
        t ++ (ds ++ ds') := by
      rw [heq', heq, List.append_assoc]
    rw [hall] at hok' hlook'
    refine ⟨ds ++ ds', List.forall_mem_append.mpr ⟨hds, hds'⟩, hok',
      Option.isSome_iff_exists.mpr ⟨_, hlook'⟩, ?_⟩
    split_ifs
    · exact Or.inr ⟨_, by rw [hall]⟩
    · exact Or.inl hall
  · rw [if_neg hdir, if_neg hnot, if_neg (not_or.mpr ⟨hdir, hnot⟩)]
    rw [heq] at hok hlook
    exact ⟨ds, hds, hok, Option.isSome_iff_exists.mpr ⟨_, hlook⟩, Or.inl heq⟩

/-- The new paths of an entry, and their nodes. -/
theorem mountEntry_new (h : t.Ok) (hnone : t.lookup 0 names = none)
    (hi : (mountEntry t e).lookup 0 names = some i) :
    names <+: e.made ∧ ∃ n, (mountEntry t e)[i]? = some n ∧ NodeFor e names n := by
  have hmakes : names <+: e.made := by
    by_contra hnot
    have hflag : (mountEntry t e).flagMap names = t.flagMap names := by
      rw [(mountEntry_spec h e).2.2]
      split_ifs with hboot
      · rw [Function.update_of_ne, touchAll_of_off_path hnot]
        rintro rfl
        exact hnot hboot.makes
      · rw [touchAll_of_off_path hnot]
    rw [flagMap_eq, flagMap_eq, hnone, hi] at hflag
    cases hflag
  refine ⟨hmakes, ?_⟩
  by_cases hfile : e.IsFile
  · obtain ⟨ds, p, n, hds, heq, hok, hlook, hmap, hparent, hname, hisFile, hsize, hdata⟩ :=
      mountEntry_file_append h hfile
    rw [heq, hok.lookup_append_node hlook hparent, hname, ← made_of_isFile hfile] at hi
    rw [heq]
    by_cases hown : names = e.made
    · -- The path of the file is not one of its directories.
      have hnot : ¬names <+: [] ++ e.dirs := by
        intro hle
        have hlen := hle.length_le
        rw [hown, made_of_isFile hfile] at hlen
        simp at hlen
      have hnew : VfsTree.lookup (t ++ ds) 0 names = none := by
        have hflag := congrFun hmap names
        rw [touchAll_of_off_path hnot, flagMap_eq, flagMap_eq, hnone] at hflag
        simpa using hflag
      rw [if_pos hown, hnew, Option.none_or, Option.some.injEq] at hi
      refine ⟨n, ?_, fun _ _ => ⟨hisFile, hsize, hdata⟩, fun hdir => absurd ⟨hfile, hown⟩ hdir⟩
      rw [← hi]
      exact List.getElem?_concat_length
    · rw [if_neg hown] at hi
      obtain ⟨d, hd, hget⟩ := mem_of_new hok hnone hi
      refine ⟨d, ?_, fun _ hmade => absurd hmade hown, fun _ => hds d hd⟩
      rw [List.getElem?_append_left (lookup_lt hok hi)]
      exact hget
  · obtain ⟨ds, hds, hok, -, heq⟩ := mountEntry_dirs_append h hfile
    have hlook : VfsTree.lookup (t ++ ds) 0 names = some i := by
      rcases heq with heq | ⟨k, heq⟩
      · rwa [heq] at hi
      · rwa [heq, lookup_setSystem] at hi
    obtain ⟨d, hd, hget⟩ := mem_of_new hok hnone hlook
    have hplain : ∃ n, (mountEntry t e)[i]? = some n ∧ n.PlainDir := by
      rcases heq with heq | ⟨k, heq⟩
      · exact ⟨d, by rw [heq, hget], hds d hd⟩
      · rw [heq, VfsTree.setSystem, List.getElem?_modify, hget]
        refine ⟨_, rfl, ?_⟩
        split_ifs
        · exact (hds d hd).setSystem
        · exact hds d hd
    obtain ⟨n, hn, hdir⟩ := hplain
    exact ⟨n, hn, fun hisFile _ => absurd hisFile hfile, fun _ => hdir⟩

theorem NodeFor.setSystem {n : TreeNode} (h : NodeFor e names n) :
    NodeFor e names { n with flags := n.flags ||| fsSystem } where
  file he hnames := by
    obtain ⟨hfile, hsize, hdata⟩ := h.file he hnames
    exact ⟨n.isFile_setSystem.mpr hfile, hsize, hdata⟩
  dir hnot := (h.dir hnot).setSystem

/-- An entry makes its path. -/
theorem mountEntry_made (h : t.Ok) (e : TarEntry) (hmakes : e.Makes names) :
    ∃ i, (mountEntry t e).lookup 0 names = some i := by
  have hall : ∃ i, (mountEntry t e).lookup 0 e.made = some i := by
    by_cases he : e.IsFile
    · obtain ⟨ds, p, n, -, heq, hok, hlook, -, hparent, hname, -⟩ := mountEntry_file_append h he
      rw [heq, hok.lookup_append_node hlook hparent, hname, ← made_of_isFile he, if_pos rfl]
      cases VfsTree.lookup (t ++ ds) 0 e.made with
      | none => exact ⟨_, rfl⟩
      | some i => exact ⟨i, rfl⟩
    · obtain ⟨ds, -, -, hlook, heq⟩ := mountEntry_dirs_append h he
      rw [← Option.isSome_iff_exists]
      rcases heq with heq | ⟨k, heq⟩
      · rwa [heq]
      · rwa [heq, lookup_setSystem]
  obtain ⟨i, hi⟩ := hall
  obtain ⟨rest, hrest⟩ := hmakes
  rw [← hrest, lookup_append, Option.bind_eq_some_iff] at hi
  exact hi.imp fun _ => And.left

/-- The first of the entries that makes a path. -/
def MadeFirst (es : List TarEntry) (names : List (List Nat)) (e : TarEntry) : Prop :=
  ∃ before after, es = before ++ e :: after ∧ e.Makes names ∧ ∀ x ∈ before, ¬x.Makes names

/-- The tree after some entries: their paths are there, and what stands at a path is what the first
entry that makes it put there. -/
structure MountedBy (es : List TarEntry) (t : VfsTree) : Prop where
  ok : t.Ok
  kept : Kept devTree t
  made : ∀ e ∈ es, ∀ names, e.Makes names → ∃ i, t.lookup 0 names = some i
  node : ∀ names i, t.lookup 0 names = some i → devTree.lookup 0 names = some i ∨
    ∃ e n, MadeFirst es names e ∧ t[i]? = some n ∧ NodeFor e names n

theorem MountedBy.mountEntry (h : MountedBy es t) (e : TarEntry) :
    MountedBy (es ++ [e]) (mountEntry t e) := by
  obtain ⟨hok, hkept, -⟩ := mountEntry_spec h.ok e
  refine ⟨hok, h.kept.trans hkept, fun x hx names hmakes => ?_, fun names i hi => ?_⟩
  · rcases List.mem_append.mp hx with hold | hnew
    · exact (h.made x hold names hmakes).imp fun i hi => hkept.lookup names i hi
    · obtain rfl := List.mem_singleton.mp hnew
      exact mountEntry_made h.ok x hmakes
  · cases hold : t.lookup 0 names with
    | some j =>
      obtain rfl := Option.some.inj ((hkept.lookup names j hold).symm.trans hi)
      refine (h.node names j hold).imp_right ?_
      rintro ⟨x, n, ⟨before, after, heq, hmakes, hfirst⟩, hn, hfor⟩
      obtain ⟨n', hn', hcase⟩ := hkept.node j n hn
      refine ⟨x, n', ⟨before, after ++ [e], by rw [heq]; simp, hmakes, hfirst⟩, hn', ?_⟩
      rcases hcase with rfl | ⟨rfl, -⟩
      · exact hfor
      · exact hfor.setSystem
    | none =>
      obtain ⟨hmakes, n, hn, hfor⟩ := mountEntry_new h.ok hold hi
      refine Or.inr ⟨e, n, ⟨es, [], rfl, hmakes, fun x hx hearlier => ?_⟩, hn, hfor⟩
      obtain ⟨j, hj⟩ := h.made x hx names hearlier
      rw [hold] at hj
      cases hj

/-- The tree after the entries of an archive. -/
theorem MountedBy.mountAll (es : List TarEntry) : MountedBy es (mountAll es) := by
  induction es using List.reverseRecOn with
  | nil => exact ⟨devTree_ok, .refl devTree, by simp, fun names i hi => Or.inl hi⟩
  | append_singleton es e ih =>
    have hstep : EnclaveOS.mountAll (es ++ [e]) =
        EnclaveOS.mountEntry (EnclaveOS.mountAll es) e := by
      simp [EnclaveOS.mountAll]
    rw [hstep]
    exact ih.mountEntry e

/-- The names `dev` and `console`. -/
def devName : List Nat := [100, 101, 118]
def consoleName : List Nat := [99, 111, 110, 115, 111, 108, 101]

theorem devTree_lookup (h : devTree.lookup 0 names = some i) :
    names = [] ∧ i = 0 ∨ names = [devName] ∧ i = 1 ∨ names = [devName, consoleName] ∧ i = 2 := by
  have hchild : ∀ p x c, devTree.findChild p x = some c →
      p = 0 ∧ x = devName ∧ c = 1 ∨ p = 1 ∧ x = consoleName ∧ c = 2 := by
    intro p x c hc
    obtain ⟨n, hn, hparent, hname⟩ := findChild_spec hc
    match c with
    | 0 =>
      cases hn
      cases hparent
    | 1 =>
      cases hn
      cases hparent
      exact Or.inl ⟨rfl, hname.symm, rfl⟩
    | 2 =>
      cases hn
      cases hparent
      exact Or.inr ⟨rfl, hname.symm, rfl⟩
    | c + 3 => cases hn
  induction names using List.reverseRecOn generalizing i with
  | nil => exact Or.inl ⟨rfl, (Option.some.inj h).symm⟩
  | append_singleton names x ih =>
    rw [lookup_snoc, Option.bind_eq_some_iff] at h
    obtain ⟨p, hp, hc⟩ := h
    rcases hchild p x i hc with ⟨rfl, rfl, rfl⟩ | ⟨rfl, rfl, rfl⟩
    · obtain ⟨rfl, -⟩ : names = [] ∧ 0 = 0 := by simpa using ih hp
      exact Or.inr (Or.inl ⟨rfl, rfl⟩)
    · obtain ⟨rfl, -⟩ : names = [devName] ∧ 1 = 1 := by simpa using ih hp
      exact Or.inr (Or.inr ⟨rfl, rfl⟩)

namespace MountedBy

variable {n : TreeNode}

/-- A node that was there before mounting, and its kind. -/
theorem old_node (h : MountedBy es t) (hi : devTree.lookup 0 names = some i)
    (hn : t[i]? = some n) :
    ¬n.IsFile ∧ (n.IsDirectory ↔ names ≠ [devName, consoleName]) := by
  obtain ⟨old, hold, hfile, hdir⟩ : ∃ old, devTree[i]? = some old ∧ ¬old.IsFile ∧
      (old.IsDirectory ↔ names ≠ [devName, consoleName]) := by
    rcases devTree_lookup hi with ⟨rfl, rfl⟩ | ⟨rfl, rfl⟩ | ⟨rfl, rfl⟩
    · exact ⟨_, rfl, by decide, by decide⟩
    · exact ⟨_, rfl, by decide, by decide⟩
    · exact ⟨_, rfl, by decide, by decide⟩
  obtain ⟨n', hn', hcase⟩ := h.kept.node i old hold
  obtain rfl := Option.some.inj (hn'.symm.trans hn)
  rcases hcase with rfl | ⟨rfl, -⟩
  · exact ⟨hfile, hdir⟩
  · exact ⟨mt old.isFile_setSystem.mp hfile, old.isDirectory_setSystem.trans hdir⟩

/-- A file of the tree is the one of the first entry that makes its path. -/
theorem file_first (h : MountedBy es t) (hi : t.lookup 0 names = some i) (hn : t[i]? = some n)
    (hfile : n.IsFile) : ∃ e, MadeFirst es names e ∧ e.IsFile ∧ names = e.made := by
  rcases h.node names i hi with hold | ⟨e, n', hfirst, hn', hfor⟩
  · exact absurd hfile (h.old_node hold hn).1
  · obtain rfl := Option.some.inj (hn'.symm.trans hn)
    refine ⟨e, hfirst, ?_⟩
    by_contra hnot
    exact (hfor.dir hnot).2 hfile

/-- No file of the tree is found at `dev`, or behind `dev/console`. -/
theorem file_not_dev (h : MountedBy es t) (hi : t.descend 0 names = some i)
    (hn : t[i]? = some n) (hfile : n.IsFile) :
    names ≠ [devName] ∧ ¬[devName, consoleName] <+: names := by
  obtain ⟨hlook, hopen⟩ := descend_eq_some.mp hi
  have hold : ∀ k, devTree.lookup 0 names ≠ some k := by
    intro k hk
    obtain rfl := Option.some.inj ((h.kept.lookup names k hk).symm.trans hlook)
    exact (h.old_node hk hn).1 hfile
  constructor
  · rintro rfl
    exact hold 1 (by decide)
  · rintro ⟨rest, rfl⟩
    cases rest with
    | nil => exact hold 2 (by decide)
    | cons x rest =>
      obtain ⟨k, d, hk, hd, hdir⟩ := hopen [devName, consoleName] x rest rfl
      have hconsole : devTree.lookup 0 [devName, consoleName] = some 2 := by decide
      obtain rfl := Option.some.inj ((h.kept.lookup _ 2 hconsole).symm.trans hk)
      exact (h.old_node hconsole hd).2.mp hdir rfl

theorem first_unique {x : TarEntry} (h : MadeFirst es names e) (h' : MadeFirst es names x) :
    e = x := by
  have hfind : ∀ {y}, MadeFirst es names y →
      es.find? (fun z => decide (names <+: z.made)) = some y := by
    rintro y ⟨before, after, heq, hmakes, hnone⟩
    rw [List.find?_eq_some_iff_append]
    refine ⟨decide_eq_true hmakes, before, after, heq, fun z hz => ?_⟩
    rw [Bool.not_eq_true', decide_eq_false_iff_not]
    exact hnone z hz
  exact Option.some.inj ((hfind h).symm.trans (hfind h'))

/-- The file of the first entry that makes its path is found there, when the nodes on the way are
directories. -/
theorem found (h : MountedBy es t) (he : e.IsFile) (hfirst : MadeFirst es e.made e)
    (hdev : e.made ≠ [devName]) (hconsole : ¬[devName, consoleName] <+: e.made)
    (hdirs : ∀ x ∈ es, x.IsFile → x.made <+: e.made → x.made = e.made) :
    ∃ i n, t.descend 0 e.made = some i ∧ t[i]? = some n ∧ n.IsFile ∧ n.size = e.size ∧
      n.data = some e.data := by
  have hmem : e ∈ es := by
    obtain ⟨before, after, heq, -⟩ := hfirst
    simp [heq]
  obtain ⟨i, hi⟩ := h.made e hmem e.made List.prefix_rfl
  have hopen : t.Open e.made := by
    intro base x rest hsplit
    obtain ⟨k, hk⟩ := h.made e hmem base ⟨x :: rest, hsplit.symm⟩
    obtain ⟨d, hd⟩ : ∃ d, t[k]? = some d := ⟨_, List.getElem?_eq_getElem (lookup_lt h.ok hk)⟩
    refine ⟨k, d, hk, hd, ?_⟩
    rcases h.node base k hk with hold | ⟨y, d', hmade, hd', hfor⟩
    · refine (h.old_node hold hd).2.mpr ?_
      rintro rfl
      exact hconsole ⟨x :: rest, hsplit.symm⟩
    · obtain rfl := Option.some.inj (hd'.symm.trans hd)
      refine (hfor.dir ?_).1
      rintro ⟨hyfile, rfl⟩
      obtain ⟨yb, ya, hy, -, -⟩ := hmade
      have hsame := hdirs y (by simp [hy]) hyfile ⟨x :: rest, hsplit.symm⟩
      rw [← hsame] at hsplit
      simpa using congrArg List.length hsplit
  refine ⟨i, ?_⟩
  rcases h.node e.made i hi with hold | ⟨y, n, hmade, hn, hfor⟩
  · rcases devTree_lookup hold with ⟨hnil, -⟩ | ⟨hone, -⟩ | ⟨htwo, -⟩
    · rw [made_of_isFile he] at hnil
      simp at hnil
    · exact absurd hone hdev
    · exact absurd ⟨[], by rw [htwo]; rfl⟩ hconsole
  · obtain rfl := first_unique hfirst hmade
    exact ⟨n, descend_eq_some.mpr ⟨hi, hopen⟩, hn, hfor.file he rfl⟩

end MountedBy

end EnclaveOS
