import EnclaveOS.Fs.Initrd

/-!
# InitrdSpec - which files of the archive are protected

A path names the node that the searches of `get_or_create_dir` lead to from the root.  The tree
is seen as a map from paths to the flag `FS_SYSTEM` of their nodes, and an entry of the archive
as the paths it makes.

Main results:

- Theorem `flagMap_mountEntry`: what an entry does to the map.
- Theorem `BootMap.mountAll`: the flags of `/boot` and of what lies in it, from the
  order of the entries.
- Theorem `initrd_boot_iff`: when exactly the files under `boot/` are protected.
-/

namespace EnclaveOS

variable {t : VfsTree} {e : TarEntry} {es : List TarEntry} {i p : Nat} {x : List Nat}

namespace VfsTree

/-- The node of a path below `p`. -/
def lookup (t : VfsTree) (p : Nat) : List (List Nat) → Option Nat
  | [] => some p
  | name :: names => (t.findChild p name).bind fun c => lookup t c names

/-- Every node but the first has a parent in front of it. -/
structure Ok (t : VfsTree) : Prop where
  root : (t[0]?).map TreeNode.parent = some none
  parent : ∀ i n, t[i]? = some n → i ≠ 0 → ∃ p < i, n.parent = some p

theorem findChild_spec (h : t.findChild p x = some i) :
    ∃ n, t[i]? = some n ∧ n.parent = some p ∧ n.name = x := by
  obtain ⟨hlt, hn, -⟩ := List.findIdx?_eq_some_iff_getElem.mp h
  rw [decide_eq_true_eq] at hn
  exact ⟨t[i], List.getElem?_eq_getElem hlt, hn⟩

theorem findChild_append (t : VfsTree) (n : TreeNode) (p : Nat) (x : List Nat) :
    VfsTree.findChild (t ++ [n]) p x =
      (t.findChild p x).or (if n.parent = some p ∧ n.name = x then some t.length else none) := by
  unfold findChild
  rw [List.findIdx?_append]
  congr 1
  by_cases h : n.parent = some p ∧ n.name = x
  · simp [h, List.findIdx?_cons]
  · simp [h, List.findIdx?_cons]

theorem findChild_setSystem (t : VfsTree) (k p : Nat) (x : List Nat) :
    (t.setSystem k).findChild p x = t.findChild p x := by
  unfold findChild setSystem
  induction t generalizing k with
  | nil => simp
  | cons n t ih =>
    cases k with
    | zero => simp [List.modify_zero_cons, List.findIdx?_cons]
    | succ k => simp only [List.modify_succ_cons, List.findIdx?_cons, ih]

theorem lookup_setSystem (t : VfsTree) (k p : Nat) (names : List (List Nat)) :
    (t.setSystem k).lookup p names = t.lookup p names := by
  induction names generalizing p with
  | nil => rfl
  | cons name names ih =>
    simp only [lookup, findChild_setSystem, ih]

theorem lookup_append (t : VfsTree) (p : Nat) (names names' : List (List Nat)) :
    t.lookup p (names ++ names') = (t.lookup p names).bind fun c => t.lookup c names' := by
  induction names generalizing p with
  | nil => rfl
  | cons name names ih =>
    simp only [List.cons_append, lookup, ih, Option.bind_assoc]

theorem lookup_root (t : VfsTree) : t.lookup 0 [] = some 0 := rfl

theorem lookup_snoc (t : VfsTree) (p : Nat) (names : List (List Nat)) (x : List Nat) :
    t.lookup p (names ++ [x]) = (t.lookup p names).bind fun c => t.findChild c x := by
  rw [lookup_append]
  congr 1
  funext c
  simp [lookup]

/-- A path leads to one node, and a node has one path. -/
theorem Ok.lookup_inj (h : t.Ok) {names names' : List (List Nat)}
    (hi : t.lookup 0 names = some i) (hi' : t.lookup 0 names' = some i) : names = names' := by
  have hstep : ∀ {names x i}, t.lookup 0 (names ++ [x]) = some i → ∃ p n, t.lookup 0 names = some p ∧
      t[i]? = some n ∧ n.parent = some p ∧ n.name = x := by
    intro names x i hi
    rw [lookup_snoc, Option.bind_eq_some_iff] at hi
    obtain ⟨p, hp, hc⟩ := hi
    obtain ⟨n, hn, hparent, hname⟩ := findChild_spec hc
    exact ⟨p, n, hp, hn, hparent, hname⟩
  have hroot : ∀ {names x}, t.lookup 0 (names ++ [x]) ≠ some 0 := by
    intro names x hi
    obtain ⟨p, n, -, hn, hparent, -⟩ := hstep hi
    have hzero := h.root
    rw [hn, Option.map_some, hparent] at hzero
    cases hzero
  induction names using List.reverseRecOn generalizing names' i with
  | nil =>
    cases hi
    induction names' using List.reverseRecOn with
    | nil => rfl
    | append_singleton names' x _ => exact absurd hi' hroot
  | append_singleton names x ih =>
    induction names' using List.reverseRecOn with
    | nil =>
      cases hi'
      exact absurd hi hroot
    | append_singleton names' x' _ =>
      obtain ⟨p, n, hp, hn, hparent, hname⟩ := hstep hi
      obtain ⟨p', n', hp', hn', hparent', hname'⟩ := hstep hi'
      rw [hn, Option.some.injEq] at hn'
      subst hn'
      rw [hparent, Option.some.injEq] at hparent'
      subst hparent'
      rw [ih hp hp', ← hname, ← hname']

/-- The flag of the node of a path. -/
def flagMap (t : VfsTree) (names : List (List Nat)) : Option Bool := (t.lookup 0 names).map t.system

theorem flagMap_eq (t : VfsTree) (names : List (List Nat)) :
    t.flagMap names = (t.lookup 0 names).map t.system := rfl

theorem lookup_lt (h : t.Ok) {names : List (List Nat)} (hi : t.lookup 0 names = some i) :
    i < t.length := by
  induction names using List.reverseRecOn generalizing i with
  | nil =>
    cases hi
    cases t with
    | nil => simpa using h.root
    | cons n t => simp
  | append_singleton names x ih =>
    rw [lookup_snoc, Option.bind_eq_some_iff] at hi
    obtain ⟨p, -, hc⟩ := hi
    obtain ⟨n, hn, -⟩ := findChild_spec hc
    exact (List.getElem?_eq_some_iff.mp hn).1

theorem system_append (t : VfsTree) (n : TreeNode) (i : Nat) :
    VfsTree.system (t ++ [n]) i =
      if i = t.length then decide (n.flags &&& fsSystem ≠ 0) else t.system i := by
  unfold system
  rcases Nat.lt_trichotomy i t.length with hlt | heq | hgt
  · rw [List.getElem?_append_left hlt, if_neg (Nat.ne_of_lt hlt)]
  · rw [heq, List.getElem?_concat_length, if_pos rfl]
    rfl
  · rw [if_neg (Nat.ne_of_gt hgt), List.getElem?_eq_none (by simp; omega),
      List.getElem?_eq_none (by omega)]

theorem Ok.append (h : t.Ok) {n : TreeNode} (hp : n.parent = some p) (hlt : p < t.length) :
    VfsTree.Ok (t ++ [n]) := by
  have hpos : 0 < t.length := by omega
  constructor
  · rw [List.getElem?_append_left hpos]
    exact h.root
  · intro i n' hn' hi
    rcases Nat.lt_or_ge i t.length with hlt' | hge
    · rw [List.getElem?_append_left hlt'] at hn'
      exact h.parent i n' hn' hi
    · have hi' : i = t.length := by
        have := (List.getElem?_eq_some_iff.mp hn').1
        rw [List.length_append, List.length_singleton] at this
        omega
      rw [hi', List.getElem?_concat_length, Option.some.injEq] at hn'
      exact ⟨p, by omega, hn' ▸ hp⟩

/-- No node of the tree is a child of one that is not there. -/
theorem Ok.findChild_length (h : t.Ok) (hp : t.length ≤ p) : t.findChild p x = none := by
  by_contra hne
  obtain ⟨i, hi⟩ := Option.ne_none_iff_exists'.mp hne
  obtain ⟨n, hn, hparent, -⟩ := findChild_spec hi
  have hlt := (List.getElem?_eq_some_iff.mp hn).1
  by_cases hzero : i = 0
  · have hroot := h.root
    rw [← hzero, hn, Option.map_some, hparent] at hroot
    cases hroot
  · obtain ⟨q, hq, hparent'⟩ := h.parent i n hn hzero
    rw [hparent, Option.some.injEq] at hparent'
    omega

/-- A node appended under the node of a path changes no other path, and not this one when it
was taken. -/
theorem Ok.lookup_append_node (h : t.Ok) {n : TreeNode} {names : List (List Nat)}
    (hp : t.lookup 0 names = some p) (hparent : n.parent = some p) (names' : List (List Nat)) :
    VfsTree.lookup (t ++ [n]) 0 names' =
      if names' = names ++ [n.name] then (t.lookup 0 names').or (some t.length)
      else t.lookup 0 names' := by
  have hlt := lookup_lt h hp
  induction names' using List.reverseRecOn with
  | nil => rw [if_neg (by simp)]; rfl
  | append_singleton names' x ih =>
    rw [lookup_snoc, lookup_snoc, ih]
    by_cases hnew : names' = names ++ [n.name]
    · -- The new node itself has no children.
      have hne : names' ++ [x] ≠ names ++ [n.name] := by
        rw [hnew]
        simp
      rw [if_pos hnew, if_neg hne]
      cases hlook : t.lookup 0 names' with
      | none =>
        rw [Option.none_or, Option.bind_some, findChild_append,
          h.findChild_length (Nat.le_refl _), hparent]
        simp [Nat.ne_of_lt hlt]
      | some c =>
        rw [Option.some_or, Option.bind_some, Option.bind_some, findChild_append, hparent, if_neg,
          Option.or_none]
        rintro ⟨hc, -⟩
        cases hc
        have := h.lookup_inj hp hlook
        rw [hnew] at this
        simp at this
    · rw [if_neg hnew]
      cases hlook : t.lookup 0 names' with
      | none =>
        rw [Option.bind_none, Option.bind_none, if_neg]
        rintro heq
        rw [List.append_inj_left' heq rfl, hp] at hlook
        cases hlook
      | some c =>
        rw [Option.bind_some, Option.bind_some, findChild_append, hparent]
        by_cases hc : c = p ∧ n.name = x
        · obtain ⟨rfl, rfl⟩ := hc
          rw [h.lookup_inj hlook hp, if_pos rfl, if_pos ⟨rfl, rfl⟩]
        · have hcond : ¬ (some p = some c ∧ n.name = x) := by
            rw [Option.some.injEq]
            exact fun hh => hc ⟨hh.1.symm, hh.2⟩
          rw [if_neg hcond, Option.or_none, if_neg]
          intro heq
          have hnames := List.append_inj_left' heq rfl
          have hx : x = n.name := by simpa [hnames] using heq
          rw [hnames, hp, Option.some.injEq] at hlook
          exact hc ⟨hlook.symm, hx.symm⟩

end VfsTree

/-- The map when `x` is looked for below `names` and made if it is not there: the new node
takes over the flag of its parent. -/
def touch (M : List (List Nat) → Option Bool) (names : List (List Nat)) (x : List Nat) :
    List (List Nat) → Option Bool :=
  fun names' => if names' = names ++ [x] then (M names').or (M names) else M names'

/-- The map when the names of a path are looked for one after the other. -/
def touchAll (M : List (List Nat) → Option Bool) (names : List (List Nat)) :
    List (List Nat) → List (List Nat) → Option Bool
  | [] => M
  | x :: xs => touchAll (touch M names x) (names ++ [x]) xs

theorem touchAll_snoc (M : List (List Nat) → Option Bool) (names xs : List (List Nat))
    (x : List Nat) :
    touchAll M names (xs ++ [x]) = touch (touchAll M names xs) (names ++ xs) x := by
  induction xs generalizing M names with
  | nil => simp [touchAll]
  | cons y ys ih =>
    rw [List.cons_append, touchAll, touchAll, ih, List.append_assoc, List.singleton_append]

/-- The name fits its buffer. -/
def NameFits (x : List Nat) : Prop := x.take (vfsMaxFilename - 1) = x

namespace VfsTree

theorem flagMap_append (h : t.Ok) {n : TreeNode} {names : List (List Nat)}
    (hp : t.lookup 0 names = some p) (hparent : n.parent = some p)
    (hflag : decide (n.flags &&& fsSystem ≠ 0) = t.system p) :
    VfsTree.flagMap (t ++ [n]) = touch t.flagMap names n.name := by
  funext names'
  have hold : ∀ {c}, t.lookup 0 names' = some c → VfsTree.system (t ++ [n]) c = t.system c := by
    intro c hc
    rw [system_append, if_neg (Nat.ne_of_lt (lookup_lt h hc))]
  unfold touch
  rw [flagMap_eq, flagMap_eq, flagMap_eq, h.lookup_append_node hp hparent]
  split_ifs with hnew
  · cases hlook : t.lookup 0 names' with
    | none =>
      rw [Option.none_or, Option.map_some, Option.map_none, Option.none_or, hp, Option.map_some,
        system_append, if_pos rfl, hflag]
    | some c => rw [Option.some_or, Option.map_some, Option.map_some, Option.some_or, hold hlook]
  · cases hlook : t.lookup 0 names' with
    | none => rfl
    | some c => rw [Option.map_some, Option.map_some, hold hlook]

theorem inherited_system (t : VfsTree) (p flags : Nat) (hflags : flags &&& fsSystem = 0) :
    decide ((flags ||| t.inherited p) &&& fsSystem ≠ 0) = t.system p := by
  unfold inherited
  cases t.system p
  · simp [hflags]
  · rw [if_pos rfl, decide_eq_true_eq, Nat.and_or_distrib_right, hflags]
    decide

/-- What later entries leave of a tree: the paths, and the nodes, except that the flag of
`/boot` may be set. -/
structure Kept (t t' : VfsTree) : Prop where
  lookup : ∀ names i, t.lookup 0 names = some i → t'.lookup 0 names = some i
  node : ∀ i n, t[i]? = some n → ∃ n', t'[i]? = some n' ∧
    (n' = n ∨ n' = { n with flags := n.flags ||| fsSystem } ∧ t'.lookup 0 [bootName] = some i)

theorem Kept.refl (t : VfsTree) : Kept t t :=
  ⟨fun _ _ h => h, fun _ n h => ⟨n, h, Or.inl rfl⟩⟩

theorem Kept.trans {t' t'' : VfsTree} (h : Kept t t') (h' : Kept t' t'') : Kept t t'' := by
  refine ⟨fun names i hi => h'.lookup names i (h.lookup names i hi), fun i n hn => ?_⟩
  obtain ⟨n', hn', he⟩ := h.node i n hn
  obtain ⟨n'', hn'', he'⟩ := h'.node i n' hn'
  refine ⟨n'', hn'', ?_⟩
  rcases he with rfl | ⟨rfl, hboot⟩
  · exact he'
  · refine Or.inr ⟨?_, h'.lookup _ _ hboot⟩
    rcases he' with rfl | ⟨rfl, -⟩
    · rfl
    · dsimp only
      rw [Nat.or_assoc, Nat.or_self]

theorem Ok.kept_append (h : t.Ok) {n : TreeNode} {names : List (List Nat)}
    (hp : t.lookup 0 names = some p) (hparent : n.parent = some p) : Kept t (t ++ [n]) := by
  constructor
  · intro names' i hi
    rw [h.lookup_append_node hp hparent, hi]
    split_ifs <;> rfl
  · intro i n' hn'
    refine ⟨n', ?_, Or.inl rfl⟩
    rw [List.getElem?_append_left (List.getElem?_eq_some_iff.mp hn').1]
    exact hn'

/-- One directory of a path: found or made. -/
theorem getOrCreateDir_spec (h : t.Ok) {names : List (List Nat)}
    (hp : t.lookup 0 names = some p) (hx : NameFits x) :
    (t.getOrCreateDir p x).1.Ok ∧
      (t.getOrCreateDir p x).1.lookup 0 (names ++ [x]) = some (t.getOrCreateDir p x).2 ∧
      (t.getOrCreateDir p x).1.flagMap = touch t.flagMap names x ∧
      Kept t (t.getOrCreateDir p x).1 := by
  unfold getOrCreateDir
  cases hc : t.findChild p x with
  | some c =>
    have hlook : t.lookup 0 (names ++ [x]) = some c := by rw [lookup_snoc, hp, Option.bind_some, hc]
    refine ⟨h, hlook, ?_, .refl t⟩
    funext names'
    unfold touch
    split_ifs with hsame
    · rw [hsame, flagMap_eq, hlook, Option.map_some, Option.some_or]
    · rfl
  | none =>
    have hname : x.take (vfsMaxFilename - 1) = x := hx
    refine ⟨h.append rfl (lookup_lt h hp), ?_, ?_, h.kept_append hp rfl⟩
    · have hlook : t.lookup 0 (names ++ [x]) = none := by
        rw [lookup_snoc, hp, Option.bind_some, hc]
      refine (h.lookup_append_node hp rfl _).trans ?_
      dsimp only
      rw [hname, if_pos rfl, hlook, Option.none_or]
    · refine (flagMap_append h hp rfl (inherited_system t p fsDirectory (by decide))).trans ?_
      dsimp only
      rw [hname]

/-- The directories of a path. -/
theorem makeDirs_spec {xs : List (List Nat)} (h : t.Ok) {names : List (List Nat)}
    (hp : t.lookup 0 names = some p) (hxs : ∀ x ∈ xs, NameFits x) :
    (t.makeDirs p xs).1.Ok ∧
      (t.makeDirs p xs).1.lookup 0 (names ++ xs) = some (t.makeDirs p xs).2 ∧
      (t.makeDirs p xs).1.flagMap = touchAll t.flagMap names xs ∧
      Kept t (t.makeDirs p xs).1 := by
  induction xs generalizing t p names with
  | nil =>
    rw [List.append_nil]
    exact ⟨h, hp, rfl, .refl t⟩
  | cons x xs ih =>
    obtain ⟨hok, hlook, hmap, hkept⟩ :=
      getOrCreateDir_spec h hp (hxs x List.mem_cons_self)
    obtain ⟨hok', hlook', hmap', hkept'⟩ :=
      ih hok hlook fun y hy => hxs y (List.mem_cons_of_mem x hy)
    refine ⟨hok', ?_, ?_, hkept.trans hkept'⟩
    · rw [List.append_assoc, List.singleton_append] at hlook'
      exact hlook'
    · rw [hmap] at hmap'
      exact hmap'

theorem system_setSystem (t : VfsTree) {k : Nat} (hk : k < t.length) (i : Nat) :
    (t.setSystem k).system i = (decide (i = k) || t.system i) := by
  unfold system setSystem
  rw [List.getElem?_modify]
  by_cases hi : k = i
  · subst hi
    rw [List.getElem?_eq_getElem hk]
    simp [Nat.and_or_distrib_right, fsSystem]
  · simp [hi, Ne.symm hi]

theorem Ok.setSystem (h : t.Ok) (k : Nat) : (t.setSystem k).Ok := by
  have hparent : ∀ i : Nat,
      ((t.setSystem k)[i]?).map TreeNode.parent = (t[i]?).map TreeNode.parent := by
    intro i
    unfold VfsTree.setSystem
    rw [List.getElem?_modify]
    split_ifs
    · cases t[i]? <;> rfl
    · simp
  constructor
  · rw [hparent]
    exact h.root
  · intro i n hn hi
    have hmap := hparent i
    rw [hn, Option.map_some] at hmap
    obtain ⟨n', hn', he⟩ := Option.map_eq_some_iff.mp hmap.symm
    obtain ⟨p, hp, hpar⟩ := h.parent i n' hn' hi
    exact ⟨p, hp, he.symm.trans hpar⟩

/-- Setting the flag of the node of a path. -/
theorem flagMap_setSystem (h : t.Ok) {names : List (List Nat)} {k : Nat}
    (hk : t.lookup 0 names = some k) :
    (t.setSystem k).flagMap = Function.update t.flagMap names (some true) := by
  funext names'
  rw [flagMap_eq, lookup_setSystem]
  by_cases hsame : names' = names
  · rw [hsame, Function.update_self, hk, Option.map_some, system_setSystem t (lookup_lt h hk)]
    simp
  · rw [Function.update_of_ne hsame, flagMap_eq]
    cases hlook : t.lookup 0 names' with
    | none => rfl
    | some i =>
      have hne : i ≠ k := by
        rintro rfl
        exact hsame (h.lookup_inj hlook hk)
      rw [Option.map_some, Option.map_some, system_setSystem t (lookup_lt h hk)]
      simp [hne]

theorem Ok.kept_setSystem {k : Nat} (hk : t.lookup 0 [bootName] = some k) :
    Kept t (t.setSystem k) := by
  constructor
  · intro names i hi
    rw [lookup_setSystem, hi]
  · intro i n hn
    unfold VfsTree.setSystem
    rw [List.getElem?_modify, hn, Option.map_eq_map, Option.map_some]
    refine ⟨_, rfl, ?_⟩
    split_ifs with hi
    · subst hi
      exact Or.inr ⟨rfl, (lookup_setSystem t k 0 _).trans hk⟩
    · exact Or.inl rfl

end VfsTree

theorem nameFits_take (x : List Nat) : NameFits (x.take (vfsMaxFilename - 1)) := by
  unfold NameFits
  rw [List.take_take, min_self]

theorem splitPath_fits (token cs : List Nat) :
    (∀ x ∈ (splitPath token cs).1, NameFits x) ∧ NameFits (splitPath token cs).2 := by
  induction cs generalizing token with
  | nil => exact ⟨by simp [splitPath], nameFits_take token⟩
  | cons c cs ih =>
    rw [splitPath]
    split_ifs with hslash htoken
    · exact ih []
    · refine ⟨fun x hx => ?_, (ih []).2⟩
      rcases List.mem_cons.mp hx with rfl | hx
      · exact nameFits_take token
      · exact (ih []).1 x hx
    · exact ih _

namespace TarEntry

/-- The names of the path that an entry makes. -/
def made (e : TarEntry) : List (List Nat) :=
  if e.path = [] then []
  else if e.typeflag = 53 ∨ e.typeflag = 48 ∨ e.typeflag = 0 then e.dirs ++ [e.file] else e.dirs

/-- The entry of the directory `boot`. -/
def IsBootDir (e : TarEntry) : Prop := e.IsDir ∧ e.dirs = [] ∧ e.file = bootName

instance (e : TarEntry) : Decidable e.IsBootDir := inferInstanceAs (Decidable (_ ∧ _))

theorem dirs_fit (e : TarEntry) : ∀ x ∈ e.dirs, NameFits x := (splitPath_fits [] e.path).1

theorem file_fits (e : TarEntry) : NameFits e.file := (splitPath_fits [] e.path).2

end TarEntry

open VfsTree

/-- The node of a regular file is the last one, and takes over the flag of its directory. -/
theorem mountEntry_file (h : t.Ok) (he : e.IsFile) :
    ∃ t' p n, mountEntry t e = t' ++ [n] ∧ t'.Ok ∧ t'.lookup 0 e.dirs = some p ∧
      n.parent = some p ∧ n.name = e.file ∧ n.flags = fsFile ||| t'.inherited p ∧
      t'.flagMap = touchAll t.flagMap [] e.dirs ∧ Kept t t' := by
  obtain ⟨hok, hlook, hmap, hkept⟩ := makeDirs_spec h t.lookup_root e.dirs_fit
  rw [List.nil_append] at hlook
  have hne : e.typeflag ≠ 53 := by
    rcases he.2 with htype | htype <;> omega
  let parent := (t.makeDirs 0 e.dirs).2
  refine ⟨(t.makeDirs 0 e.dirs).1, parent, ⟨e.file.take (vfsMaxFilename - 1),
    fsFile ||| (t.makeDirs 0 e.dirs).1.inherited parent, some parent, e.size, some e.data⟩, ?_,
    hok, hlook, rfl, e.file_fits, rfl, hmap, hkept⟩
  unfold mountEntry
  rw [if_neg he.1]
  dsimp only
  rw [if_neg hne, if_pos he.2]
  rfl

/-- What an entry does to the flags of the paths. -/
theorem mountEntry_spec (h : t.Ok) (e : TarEntry) :
    (mountEntry t e).Ok ∧ Kept t (mountEntry t e) ∧
      (mountEntry t e).flagMap =
        if e.IsBootDir then Function.update (touchAll t.flagMap [] e.made) [bootName] (some true)
        else touchAll t.flagMap [] e.made := by
  by_cases hpath : e.path = []
  · have hsame : mountEntry t e = t := by
      unfold mountEntry
      rw [if_pos hpath]
    have hnot : ¬ e.IsBootDir := fun hb => hb.1.1 hpath
    rw [hsame, if_neg hnot, TarEntry.made, if_pos hpath]
    exact ⟨h, .refl t, rfl⟩
  by_cases hfile : e.IsFile
  · obtain ⟨t', p, n, heq, hok, hlook, hparent, hname, hflags, hmap, hkept⟩ := mountEntry_file h hfile
    have hnot : ¬ e.IsBootDir := by
      intro hb
      have hdir := hb.1.2
      rcases hfile.2 with htype | htype <;> omega
    have hmade : e.made = e.dirs ++ [e.file] := by
      rw [TarEntry.made, if_neg hpath, if_pos (Or.inr hfile.2)]
    rw [heq, if_neg hnot, hmade, touchAll_snoc, List.nil_append, ← hname, ← hmap]
    refine ⟨hok.append hparent (lookup_lt hok hlook), hkept.trans (hok.kept_append hlook hparent), ?_⟩
    apply flagMap_append hok hlook hparent
    rw [hflags]
    exact inherited_system t' p fsFile (by decide)
  · have hnotfile : ¬ (e.typeflag = 48 ∨ e.typeflag = 0) := fun htype => hfile ⟨hpath, htype⟩
    obtain ⟨hok, hlook, hmap, hkept⟩ := makeDirs_spec h t.lookup_root e.dirs_fit
    rw [List.nil_append] at hlook
    unfold mountEntry
    rw [if_neg hpath, TarEntry.made, if_neg hpath]
    dsimp only
    by_cases hdir : e.typeflag = 53
    · rw [if_pos hdir, if_pos (Or.inl hdir), touchAll_snoc, List.nil_append]
      obtain ⟨hok', hlook', hmap', hkept'⟩ := getOrCreateDir_spec hok hlook e.file_fits
      rw [hmap] at hmap'
      have hroot : (t.makeDirs 0 e.dirs).2 = 0 ↔ e.dirs = [] := by
        constructor
        · intro hzero
          rw [hzero] at hlook
          exact hok.lookup_inj hlook rfl
        · intro hnil
          rw [hnil]
          rfl
      have hboot : (t.makeDirs 0 e.dirs).2 = 0 ∧ e.file = bootName ↔ e.IsBootDir := by
        rw [hroot]
        exact ⟨fun hb => ⟨⟨hpath, hdir⟩, hb⟩, fun hb => hb.2⟩
      by_cases hb : e.IsBootDir
      · rw [if_pos (hboot.mpr hb), if_pos hb, ← hmap']
        have hk : ((t.makeDirs 0 e.dirs).1.getOrCreateDir (t.makeDirs 0 e.dirs).2 e.file).1.lookup 0
            [bootName] =
              some ((t.makeDirs 0 e.dirs).1.getOrCreateDir (t.makeDirs 0 e.dirs).2 e.file).2 := by
          rw [← hlook', hb.2.1, hb.2.2]
          rfl
        exact ⟨hok'.setSystem _, (hkept.trans hkept').trans (Ok.kept_setSystem hk),
          flagMap_setSystem hok' hk⟩
      · rw [if_neg (mt hboot.mp hb), if_neg hb]
        exact ⟨hok', hkept.trans hkept', hmap'⟩
    · have hb : ¬ e.IsBootDir := fun hb => hdir hb.1.2
      rw [if_neg hdir, if_neg hnotfile, if_neg hb, if_neg (not_or.mpr ⟨hdir, hnotfile⟩)]
      exact ⟨hok, hkept, hmap⟩

namespace TarEntry

/-- The entry makes the node of the path, unless it is there. -/
def Makes (e : TarEntry) (names : List (List Nat)) : Prop := names <+: e.made

theorem IsBootDir.made (h : e.IsBootDir) : e.made = [bootName] := by
  rw [TarEntry.made, if_neg h.1.1, if_pos (Or.inl h.1.2), h.2.1, h.2.2]
  rfl

theorem IsBootDir.makes (h : e.IsBootDir) : e.Makes [bootName] := by
  rw [Makes, h.made]

theorem IsBootDir.not_makes (h : e.IsBootDir) (c : List Nat) : ¬ e.Makes [bootName, c] := by
  rw [Makes, h.made]
  intro hprefix
  have := hprefix.length_le
  simp at this

end TarEntry

/-- An entry of `boot` comes before the first one that makes `boot/c`. -/
def Precedes (es : List TarEntry) (c : List Nat) : Prop :=
  ∃ before d after, es = before ++ d :: after ∧ d.IsBootDir ∧
    ∀ x ∈ before, ¬ x.Makes [bootName, c]

theorem Precedes.append {c : List Nat} (h : Precedes es c) (es' : List TarEntry) :
    Precedes (es ++ es') c := by
  obtain ⟨before, d, after, rfl, hd, hnone⟩ := h
  exact ⟨before, d, after ++ es', by simp, hd, hnone⟩

/-- Another entry changes nothing for a path that has been made. -/
theorem Precedes.of_append {c : List Nat} (h : Precedes (es ++ [e]) c)
    (hmade : ∃ x ∈ es, x.Makes [bootName, c]) : Precedes es c := by
  obtain ⟨before, d, after, heq, hd, hnone⟩ := h
  obtain ⟨x, hx, hmakes⟩ := hmade
  cases after using List.reverseRecOn with
  | nil =>
    obtain ⟨rfl, -⟩ := List.append_inj' heq rfl
    exact absurd hmakes (hnone x hx)
  | append_singleton after y =>
    rw [← List.cons_append, ← List.append_assoc] at heq
    obtain ⟨rfl, -⟩ := List.append_inj' heq rfl
    exact ⟨before, d, after, rfl, hd, hnone⟩

theorem precedes_of_mem {c : List Nat} (hd : e ∈ es) (hboot : e.IsBootDir)
    (hnone : ∀ x ∈ es, ¬ x.Makes [bootName, c]) : Precedes es c := by
  obtain ⟨before, after, rfl⟩ := List.append_of_mem hd
  exact ⟨before, e, after, rfl, hboot, fun x hx => hnone x (List.mem_append_left _ hx)⟩

section Touch

variable {M : List (List Nat) → Option Bool} {names xs : List (List Nat)} {b c : List Nat}

/-- Paths that are not longer are left alone. -/
theorem touchAll_of_length_le {names' : List (List Nat)} (h : names'.length ≤ names.length) :
    touchAll M names xs names' = M names' := by
  induction xs generalizing M names with
  | nil => rfl
  | cons x xs ih =>
    rw [touchAll, ih (by simp; omega), touch, if_neg]
    intro heq
    rw [heq, List.length_append, List.length_singleton] at h
    omega

theorem touchAll_one (M : List (List Nat) → Option Bool) (xs : List (List Nat)) (b : List Nat) :
    touchAll M [] xs [b] = if [b] <+: xs then (M [b]).or (M []) else M [b] := by
  cases xs with
  | nil => simp [touchAll]
  | cons x xs =>
    rw [touchAll, touchAll_of_length_le (by simp), touch]
    simp only [List.nil_append, List.cons_prefix_cons, List.nil_prefix, and_true,
      List.cons.injEq]

theorem touchAll_two (M : List (List Nat) → Option Bool) (xs : List (List Nat)) (b c : List Nat) :
    touchAll M [] xs [b, c] =
      if [b, c] <+: xs then (M [b, c]).or (touchAll M [] xs [b]) else M [b, c] := by
  cases xs with
  | nil => simp [touchAll]
  | cons x xs =>
    have hone : touchAll M [] (x :: xs) [b] = touch M [] x [b] := by
      rw [touchAll, touchAll_of_length_le (by simp)]
    have htwo : touch M [] x [b, c] = M [b, c] := by
      rw [touch, if_neg (by simp)]
    rw [hone]
    cases xs with
    | nil =>
      have hprefix : ¬ [b, c] <+: [x] := fun hprefix => by simpa using hprefix.length_le
      rw [if_neg hprefix]
      exact htwo
    | cons y ys =>
      have hstep : touchAll M [] (x :: y :: ys) [b, c] = touch (touch M [] x) [x] y [b, c] := by
        rw [touchAll, touchAll, touchAll_of_length_le (by simp)]
        rfl
      rw [hstep, touch, htwo]
      by_cases hsame : b = x ∧ c = y
      · obtain ⟨rfl, rfl⟩ := hsame
        simp
      · have hprefix : ¬ [b, c] <+: x :: y :: ys := by
          simpa using hsame
        rw [if_neg hprefix, if_neg]
        simpa using hsame

end Touch

/-- Outside of `/boot` nothing is flagged, and below its children a node has the flag of its
parent. -/
structure Inherits (M : List (List Nat) → Option Bool) : Prop where
  root : M [] = some false
  top : ∀ x f, x ≠ bootName → M [x] = some f → f = false
  deep : ∀ names x f, names ≠ [] → names ≠ [bootName] → M (names ++ [x]) = some f →
    M names = some f

theorem Inherits.touch {M : List (List Nat) → Option Bool} (h : Inherits M)
    (names : List (List Nat)) (x : List Nat) : Inherits (touch M names x) := by
  refine ⟨?_, fun y f hy hf => ?_, fun names' y f hne hboot hf => ?_⟩
  · rw [EnclaveOS.touch, if_neg (by simp)]
    exact h.root
  · rw [EnclaveOS.touch] at hf
    split_ifs at hf with hsame
    · have hnil : names = [] := by
        have := congrArg List.length hsame
        rw [List.length_append, List.length_singleton, List.length_singleton] at this
        exact List.eq_nil_of_length_eq_zero (by omega)
      cases hM : M [y] with
      | none =>
        rw [hM, hnil, h.root] at hf
        simpa using hf.symm
      | some g =>
        rw [hM, Option.some_or] at hf
        exact h.top y f hy (hM.trans hf)
    · exact h.top y f hy hf
  · rw [EnclaveOS.touch] at hf ⊢
    have hparent : M names' = some f := by
      split_ifs at hf with hsame
      · cases hM : M (names' ++ [y]) with
        | none =>
          rw [hM, Option.none_or] at hf
          rw [List.append_inj_left' hsame rfl]
          exact hf
        | some g =>
          rw [hM, Option.some_or] at hf
          exact h.deep names' y f hne hboot (hM.trans hf)
      · exact h.deep names' y f hne hboot hf
    rw [hparent]
    split_ifs <;> rfl

theorem Inherits.touchAll {M : List (List Nat) → Option Bool} (h : Inherits M)
    (names xs : List (List Nat)) : Inherits (touchAll M names xs) := by
  induction xs generalizing M names with
  | nil => exact h
  | cons x xs ih => exact ih (h.touch names x) _

theorem Inherits.setBoot {M : List (List Nat) → Option Bool} (h : Inherits M) :
    Inherits (Function.update M [bootName] (some true)) := by
  refine ⟨?_, fun y f hy hf => ?_, fun names' y f hne hboot hf => ?_⟩
  · rw [Function.update_of_ne (by simp)]
    exact h.root
  · rw [Function.update_of_ne (by simpa using hy)] at hf
    exact h.top y f hy hf
  · have hlong : names' ++ [y] ≠ [bootName] := by
      intro heq
      have := congrArg List.length heq
      rw [List.length_append, List.length_singleton, List.length_singleton] at this
      exact hne (List.eq_nil_of_length_eq_zero (by omega))
    rw [Function.update_of_ne hlong] at hf
    rw [Function.update_of_ne hboot]
    exact h.deep names' y f hne hboot hf

/-- The flags of `/boot` and of its children after some entries. -/
structure BootMap (es : List TarEntry) (M : List (List Nat) → Option Bool) : Prop where
  inherits : Inherits M
  boot : (M [bootName] = none ↔ ∀ x ∈ es, ¬ x.Makes [bootName]) ∧
    ∀ f, M [bootName] = some f → (f = true ↔ ∃ d ∈ es, d.IsBootDir)
  below : ∀ c, (M [bootName, c] = none ↔ ∀ x ∈ es, ¬ x.Makes [bootName, c]) ∧
    ∀ f, M [bootName, c] = some f → (f = true ↔ Precedes es c)

/-- An entry makes the nodes of its path. -/
theorem BootMap.touchAll {M : List (List Nat) → Option Bool} (h : BootMap es M)
    (he : ¬ e.IsBootDir) : BootMap (es ++ [e]) (touchAll M [] e.made) := by
  have hdirs : (∃ d ∈ es ++ [e], d.IsBootDir) ↔ ∃ d ∈ es, d.IsBootDir := by
    simp [he]
  have hbootNone : (EnclaveOS.touchAll M [] e.made [bootName] = none ↔
      ∀ x ∈ es ++ [e], ¬ x.Makes [bootName]) := by
    rw [List.forall_mem_append, List.forall_mem_singleton, ← h.boot.1, touchAll_one,
      TarEntry.Makes]
    split_ifs with hmakes
    · simp [hmakes, h.inherits.root]
    · simp [hmakes]
  have hboot : ∀ f, EnclaveOS.touchAll M [] e.made [bootName] = some f →
      (f = true ↔ ∃ d ∈ es, d.IsBootDir) := by
    intro f hf
    rw [touchAll_one] at hf
    cases hM : M [bootName] with
    | none =>
      rw [hM, h.inherits.root, Option.none_or] at hf
      have hnone : ¬ ∃ d ∈ es, d.IsBootDir :=
        fun ⟨d, hd, hdir⟩ => h.boot.1.mp hM d hd hdir.makes
      split_ifs at hf
      rw [Option.some.injEq] at hf
      simp [← hf, hnone]
    | some g =>
      rw [hM, Option.some_or, ite_self, Option.some.injEq] at hf
      exact hf ▸ h.boot.2 g hM
  refine ⟨h.inherits.touchAll _ _, ⟨hbootNone, fun f hf => ?_⟩, fun c => ⟨?_, fun f hf => ?_⟩⟩
  · rw [hdirs]
    exact hboot f hf
  · rw [List.forall_mem_append, List.forall_mem_singleton, ← (h.below c).1, touchAll_two,
      TarEntry.Makes]
    split_ifs with hmakes
    · -- What makes `boot/c` makes `boot`.
      have hsome : EnclaveOS.touchAll M [] e.made [bootName] ≠ none := by
        intro hnone
        refine hbootNone.mp hnone e (by simp) (List.IsPrefix.trans ?_ hmakes)
        exact ⟨[c], rfl⟩
      simp [hmakes, hsome]
    · simp [hmakes]
  · rw [touchAll_two] at hf
    cases hM : M [bootName, c] with
    | some g =>
      rw [hM, Option.some_or, ite_self, Option.some.injEq] at hf
      have hmade : ∃ x ∈ es, x.Makes [bootName, c] := by
        by_contra hnone
        push Not at hnone
        rw [(h.below c).1.mpr hnone] at hM
        cases hM
      rw [← hf, (h.below c).2 g hM]
      exact ⟨fun hp => hp.append _, fun hp => hp.of_append hmade⟩
    | none =>
      have hnone := (h.below c).1.mp hM
      rw [hM, Option.none_or] at hf
      split_ifs at hf with hmakes
      rw [hboot f hf]
      constructor
      · rintro ⟨d, hd, hdir⟩
        exact (precedes_of_mem hd hdir hnone).append _
      · rintro ⟨before, d, after, heq, hd, -⟩
        have hmem : d ∈ es ++ [e] := by simp [heq]
        exact hdirs.mp ⟨d, hmem, hd⟩

/-- The entry of `boot` sets its flag. -/
theorem BootMap.setBoot {M : List (List Nat) → Option Bool} (h : BootMap es M)
    (he : e.IsBootDir) :
    BootMap (es ++ [e])
      (Function.update (EnclaveOS.touchAll M [] e.made) [bootName] (some true)) := by
  have hbelow : ∀ c, Function.update (EnclaveOS.touchAll M [] e.made) [bootName] (some true)
      [bootName, c] = M [bootName, c] := by
    intro c
    have hnot : ¬ [bootName, c] <+: e.made := he.not_makes c
    rw [Function.update_of_ne (by simp), touchAll_two, if_neg hnot]
  refine ⟨(h.inherits.touchAll _ _).setBoot, ⟨?_, fun f hf => ?_⟩, fun c => ⟨?_, fun f hf => ?_⟩⟩
  · rw [Function.update_self]
    simp only [reduceCtorEq, false_iff]
    exact fun hnone => hnone e (by simp) he.makes
  · rw [Function.update_self, Option.some.injEq] at hf
    simp only [← hf, true_iff]
    exact ⟨e, by simp, he⟩
  · rw [hbelow, List.forall_mem_append, List.forall_mem_singleton, (h.below c).1]
    simp [he.not_makes c]
  · rw [hbelow] at hf
    rw [(h.below c).2 f hf]
    refine ⟨fun hp => hp.append _, fun hp => hp.of_append ?_⟩
    by_contra hnone
    push Not at hnone
    rw [(h.below c).1.mpr hnone] at hf
    cases hf

theorem BootMap.mountEntry (h : t.Ok) (hmap : BootMap es t.flagMap) (e : TarEntry) :
    BootMap (es ++ [e]) (mountEntry t e).flagMap := by
  rw [(mountEntry_spec h e).2.2]
  split_ifs with he
  · exact hmap.setBoot he
  · exact hmap.touchAll he

theorem devTree_ok : devTree.Ok := by
  constructor
  · rfl
  · intro i n hn hi
    match i, hi with
    | 1, _ =>
      cases hn
      exact ⟨0, by decide, rfl⟩
    | 2, _ =>
      cases hn
      exact ⟨1, by decide, rfl⟩
    | i + 3, _ => cases hn

theorem devTree_bootMap : BootMap [] devTree.flagMap := by
  have hsystem : ∀ i, devTree.system i = false := by
    intro i
    match i with
    | 0 | 1 | 2 => rfl
    | i + 3 => rfl
  have hflag : ∀ names f, devTree.flagMap names = some f → f = false := by
    intro names f hf
    rw [flagMap_eq] at hf
    obtain ⟨i, -, hi⟩ := Option.map_eq_some_iff.mp hf
    rw [← hi, hsystem]
  have hboot : devTree.findChild 0 bootName = none := by decide
  have hnone : ∀ names, devTree.flagMap (bootName :: names) = none := by
    intro names
    rw [flagMap_eq, VfsTree.lookup, hboot]
    rfl
  refine ⟨⟨by rw [flagMap_eq]; rfl, fun x f _ hf => hflag _ f hf, fun names x f _ _ hf => ?_⟩,
    ⟨by simp [hnone], fun f hf => by simp [hnone] at hf⟩,
    fun c => ⟨by simp [hnone], fun f hf => by simp [hnone] at hf⟩⟩
  have hparent : devTree.lookup 0 names ≠ none := by
    intro hlook
    rw [flagMap_eq, lookup_snoc, hlook] at hf
    cases hf
  obtain ⟨i, hi⟩ := Option.ne_none_iff_exists'.mp hparent
  rw [flagMap_eq, hi, Option.map_some, hsystem, hflag _ f hf]

/-- The flags after the entries of an archive. -/
theorem BootMap.mountAll (es : List TarEntry) :
    (mountAll es).Ok ∧ BootMap es (mountAll es).flagMap := by
  induction es using List.reverseRecOn with
  | nil => exact ⟨devTree_ok, devTree_bootMap⟩
  | append_singleton es e ih =>
    have hstep : EnclaveOS.mountAll (es ++ [e]) = EnclaveOS.mountEntry (EnclaveOS.mountAll es) e := by
      simp [EnclaveOS.mountAll]
    rw [hstep]
    exact ⟨(mountEntry_spec ih.1 e).1, .mountEntry ih.1 ih.2 e⟩

/-- The flag of the directory of a file, when the file is mounted after the entries. -/
theorem BootMap.dirs {M : List (List Nat) → Option Bool} (h : BootMap es M)
    {xs : List (List Nat)} {f : Bool} (hf : EnclaveOS.touchAll M [] xs xs = some f) :
    (xs.head? ≠ some bootName → f = false) ∧
      (xs = [bootName] → (f = true ↔ ∃ d ∈ es, d.IsBootDir)) ∧
      ∀ c rest, xs = bootName :: c :: rest → (f = true ↔ Precedes es c) := by
  have hinherits := h.inherits.touchAll [] xs
  have hone : ∀ g, EnclaveOS.touchAll M [] xs [bootName] = some g →
      (g = true ↔ ∃ d ∈ es, d.IsBootDir) := by
    intro g hg
    rw [touchAll_one] at hg
    cases hM : M [bootName] with
    | some g' =>
      rw [hM, Option.some_or, ite_self, Option.some.injEq] at hg
      exact hg ▸ h.boot.2 g' hM
    | none =>
      rw [hM, h.inherits.root, Option.none_or] at hg
      split_ifs at hg
      rw [Option.some.injEq] at hg
      have hnone : ¬ ∃ d ∈ es, d.IsBootDir :=
        fun ⟨d, hd, hdir⟩ => h.boot.1.mp hM d hd hdir.makes
      simp [← hg, hnone]
  -- Down from a node that is not `/boot` the flag stays the same.
  have hdown : ∀ (base rest : List (List Nat)), base ≠ [] → base ≠ [bootName] →
      EnclaveOS.touchAll M [] xs (base ++ rest) = some f →
      EnclaveOS.touchAll M [] xs base = some f := by
    intro base rest hne hboot
    induction rest using List.reverseRecOn with
    | nil => simp
    | append_singleton rest x ih =>
      intro hx
      rw [← List.append_assoc] at hx
      refine ih (hinherits.deep _ x f (by simp [hne]) (fun heq => ?_) hx)
      rcases List.append_eq_singleton_iff.mp heq with ⟨hbase, -⟩ | ⟨hbase, -⟩
      · exact hne hbase
      · exact hboot hbase
  refine ⟨fun hhead => ?_, fun hxs => ?_, fun c rest hxs => ?_⟩
  · cases xs with
    | nil =>
      rw [hinherits.root, Option.some.injEq] at hf
      exact hf.symm
    | cons y ys =>
      have hy : y ≠ bootName := by simpa using hhead
      exact hinherits.top y f hy (hdown [y] ys (by simp) (by simpa using hy) hf)
  · subst hxs
    exact hone f hf
  · subst hxs
    have htwo := hdown [bootName, c] rest (by simp) (by simp) hf
    rw [touchAll_two, if_pos (by simp)] at htwo
    cases hM : M [bootName, c] with
    | some g =>
      rw [hM, Option.some_or, Option.some.injEq] at htwo
      exact htwo ▸ (h.below c).2 g hM
    | none =>
      rw [hM, Option.none_or] at htwo
      rw [hone f htwo]
      constructor
      · rintro ⟨d, hd, hdir⟩
        exact precedes_of_mem hd hdir ((h.below c).1.mp hM)
      · rintro ⟨before, d, after, rfl, hd, -⟩
        exact ⟨d, by simp, hd⟩

/-- The path has `boot` in front, and more behind it. -/
def TarEntry.UnderBoot (e : TarEntry) : Prop := e.dirs.head? = some bootName

instance (e : TarEntry) : Decidable e.UnderBoot := inferInstanceAs (Decidable (_ = _))

/-- `sys_open` refuses a node with the flags of this one. -/
def TreeNode.Refused (node : TreeNode) : Prop :=
  ∀ (s : VfsState) (task : TaskId) (n : Ptr) (v : VfsNode) (flags : Nat) (alloc : Option Ptr),
    s.nodes n = some v → v.flags = node.flags →
      openNode s task n flags alloc = some (s, -vfsEAcces)

/-- The node of a regular file, the last one made for it, is flagged in the end exactly if the
path of the file lies under `boot/`, and then it cannot be opened. -/
def FileProtected (before : List TarEntry) (e : TarEntry) (after : List TarEntry) : Prop :=
  ∃ node, (mountAll (before ++ e :: after))[(mountAll (before ++ [e])).length - 1]? = some node ∧
    (node.flags &&& fsSystem ≠ 0 ↔ e.UnderBoot) ∧ (e.UnderBoot → node.Refused)

/-- The entry of `boot` stands in front of what leads to the file; a file that is itself the
first to be named `boot` is not followed by one. -/
def BootFirst (before : List TarEntry) (e : TarEntry) (after : List TarEntry) : Prop :=
  (e.dirs = [bootName] → ∃ d ∈ before, d.IsBootDir) ∧
  (∀ c rest, e.dirs = bootName :: c :: rest → Precedes before c) ∧
  (e.dirs = [] → e.file = bootName → (∀ x ∈ before, ¬ x.Makes [bootName]) →
    ∀ d ∈ after, ¬ d.IsBootDir)

theorem VfsTree.Kept.foldl {t : VfsTree} (h : t.Ok) (es : List TarEntry) :
    Kept t (es.foldl mountEntry t) := by
  induction es generalizing t with
  | nil => exact .refl t
  | cons e es ih =>
    obtain ⟨hok, hkept, -⟩ := mountEntry_spec h e
    exact hkept.trans (ih hok)

theorem TreeNode.refused_of_flags {node : TreeNode} (h : node.flags = fsFile ||| fsSystem) :
    node.Refused := by
  intro s task n v flags alloc hv hflags
  unfold openNode
  rw [hv, Option.bind_eq_bind, Option.bind_some, if_pos]
  rw [hflags, h]
  decide

/-- A file in a directory keeps the flag it was made with. -/
theorem fileProtected_below {t' : VfsTree} {n node : TreeNode} (hdirs : e.dirs ≠ [])
    (hmap : BootMap es t.flagMap) (hmap' : t'.flagMap = touchAll t.flagMap [] e.dirs)
    (hlook : t'.lookup 0 e.dirs = some p) (hflags : n.flags = fsFile ||| t'.inherited p)
    (hnode : node = n) (after : List TarEntry) :
    ((node.flags &&& fsSystem ≠ 0 ↔ e.UnderBoot) ∧ (e.UnderBoot → node.Refused)) ↔
      BootFirst es e after := by
  have hf : touchAll t.flagMap [] e.dirs e.dirs = some (t'.system p) := by
    rw [← hmap', flagMap_eq, hlook, Option.map_some]
  obtain ⟨hother, hone, hdeep⟩ := hmap.dirs hf
  have hflag : node.flags &&& fsSystem ≠ 0 ↔ t'.system p = true := by
    rw [hnode, hflags, ← inherited_system t' p fsFile (by decide), decide_eq_true_iff]
  have hrefused : t'.system p = true → node.Refused := by
    intro hsystem
    apply TreeNode.refused_of_flags
    rw [hnode, hflags, inherited, hsystem, if_pos rfl]
  rw [hflag]
  unfold BootFirst
  by_cases hunder : e.UnderBoot
  · have hcond : t'.system p = true ↔ BootFirst es e after := by
      unfold BootFirst TarEntry.UnderBoot at *
      cases hd : e.dirs with
      | nil => exact absurd hd hdirs
      | cons x rest =>
        rw [hd, List.head?_cons] at hunder
        cases hunder
        cases rest with
        | nil => simp [hone hd]
        | cons c rest => simp [hdeep c rest hd]
    constructor
    · exact fun h => hcond.mp (h.1.mpr hunder)
    · exact fun h => ⟨iff_of_true (hcond.mpr h) hunder, fun _ => hrefused (hcond.mpr h)⟩
  · have hfalse := hother hunder
    refine iff_of_true ⟨iff_of_false (by simp [hfalse]) hunder, fun h => absurd h hunder⟩ ⟨?_, ?_, ?_⟩
    · intro hd
      exact absurd (by rw [TarEntry.UnderBoot, hd]; rfl) hunder
    · intro c rest hd
      exact absurd (by rw [TarEntry.UnderBoot, hd]; rfl) hunder
    · exact fun hd => absurd hd hdirs

theorem fileProtected_iff {before after : List TarEntry} (he : e.IsFile) :
    FileProtected before e after ↔ BootFirst before e after := by
  obtain ⟨hok, hmap⟩ := BootMap.mountAll before
  obtain ⟨t', p, n, heq, hok', hlook, hparent, hname, hflags, hmap', hkept'⟩ :=
    mountEntry_file hok he
  have hpre : mountAll (before ++ [e]) = t' ++ [n] := by
    rw [← heq]
    simp [mountAll]
  have hlast : (mountAll (before ++ [e])).length - 1 = t'.length := by
    rw [hpre, List.length_append, List.length_singleton, Nat.add_sub_cancel]
  have hall : mountAll (before ++ e :: after) = after.foldl mountEntry (t' ++ [n]) := by
    rw [← heq]
    simp [mountAll]
  have hokn : VfsTree.Ok (t' ++ [n]) := hok'.append hparent (lookup_lt hok' hlook)
  have hkept : Kept (t' ++ [n]) (mountAll (before ++ e :: after)) := hall ▸ .foldl hokn after
  obtain ⟨node, hnode, hcase⟩ := hkept.node t'.length n List.getElem?_concat_length
  have hiff : FileProtected before e after ↔
      (node.flags &&& fsSystem ≠ 0 ↔ e.UnderBoot) ∧ (e.UnderBoot → node.Refused) := by
    unfold FileProtected
    rw [hlast]
    constructor
    · rintro ⟨node', hnode', h⟩
      rw [hnode, Option.some.injEq] at hnode'
      exact hnode' ▸ h
    · exact fun h => ⟨node, hnode, h⟩
  rw [hiff]
  -- The flag of the node can only change when it is `/boot` itself.
  have hboot : (mountAll (before ++ e :: after)).lookup 0 [bootName] = some t'.length →
      p = 0 ∧ e.file = bootName := by
    intro hk
    obtain ⟨m, hm, hmparent, hmname⟩ := findChild_spec (by simpa [VfsTree.lookup] using hk)
    rw [hnode] at hm
    cases hm
    have hsame : node.parent = n.parent ∧ node.name = n.name := by
      rcases hcase with rfl | ⟨rfl, -⟩ <;> exact ⟨rfl, rfl⟩
    rw [hsame.1, hparent, Option.some.injEq] at hmparent
    exact ⟨hmparent, hname.symm.trans (hsame.2.symm.trans hmname)⟩
  by_cases hdirs : e.dirs = []
  · have hunder : ¬ e.UnderBoot := by simp [TarEntry.UnderBoot, hdirs]
    have hf : touchAll (mountAll before).flagMap [] e.dirs e.dirs = some (t'.system p) := by
      rw [← hmap', flagMap_eq, hlook, Option.map_some]
    have hnflags : n.flags = fsFile := by
      rw [hflags, VfsTree.inherited, (hmap.dirs hf).1 hunder]
      rfl
    rw [hdirs] at hlook hmap'
    have hfirst : BootFirst before e after ↔ (e.file = bootName →
        (∀ x ∈ before, ¬ x.Makes [bootName]) → ∀ d ∈ after, ¬ d.IsBootDir) := by
      simp [BootFirst, hdirs]
    rw [hfirst]
    by_cases hnew : e.file = bootName ∧ ∀ x ∈ before, ¬ x.Makes [bootName]
    · -- The file is `/boot`, and its flag is the one of the final map.
      have hnone : t'.lookup 0 [bootName] = none := by
        have hM : t'.flagMap [bootName] = none := by
          rw [hmap']
          exact hmap.boot.1.mpr hnew.2
        simpa [flagMap_eq] using hM
      have hk : (mountAll (before ++ e :: after)).lookup 0 [bootName] = some t'.length := by
        apply hkept.lookup
        rw [hok'.lookup_append_node hlook hparent, hname, hnew.1, List.nil_append, if_pos rfl,
          hnone, Option.none_or]
      have hflag := (BootMap.mountAll (before ++ e :: after)).2.boot.2
        ((mountAll (before ++ e :: after)).system t'.length)
        (by rw [flagMap_eq, hk, Option.map_some])
      have hsystem : (mountAll (before ++ e :: after)).system t'.length = true ↔
          node.flags &&& fsSystem ≠ 0 := by
        unfold VfsTree.system
        rw [hnode]
        simp
      have hbefore : ∀ d ∈ before, ¬ d.IsBootDir := fun d hd hdir => hnew.2 d hd hdir.makes
      have hnot : ¬ e.IsBootDir := by
        intro hdir
        have htype := hdir.1.2
        rcases he.2 with h | h <;> omega
      rw [hsystem] at hflag
      simp only [List.mem_append, List.mem_cons] at hflag
      constructor
      · rintro ⟨hprot, -⟩ - - d hd hdir
        exact hunder (hprot.mp (hflag.mpr ⟨d, Or.inr (Or.inr hd), hdir⟩))
      · intro h
        refine ⟨iff_of_false (fun hset => ?_) hunder, fun hu => absurd hu hunder⟩
        obtain ⟨d, hd | rfl | hd, hdir⟩ := hflag.mp hset
        · exact hbefore d hd hdir
        · exact hnot hdir
        · exact h hnew.1 hnew.2 d hd hdir
    · -- The node is not the one of `/boot`, so its flag stays clear.
      have hsame : node = n := by
        refine hcase.resolve_right ?_
        rintro ⟨-, hk⟩
        have hfile := (hboot hk).2
        have hM : (mountAll before).flagMap [bootName] ≠ none :=
          fun hM => hnew ⟨hfile, hmap.boot.1.mp hM⟩
        have hsome : (mountAll before).lookup 0 [bootName] ≠ none := by
          intro hlook'
          rw [flagMap_eq, hlook'] at hM
          exact hM rfl
        obtain ⟨b, hb⟩ := Option.ne_none_iff_exists'.mp hsome
        have hb' := hkept'.lookup _ _ hb
        have hlt := lookup_lt hok' hb'
        have hb'' := hkept.lookup _ _ ((hok'.kept_append hlook hparent).lookup _ _ hb')
        rw [hk, Option.some.injEq] at hb''
        omega
      have hclear : ¬ node.flags &&& fsSystem ≠ 0 := by
        rw [hsame, hnflags]
        decide
      refine iff_of_true ⟨iff_of_false hclear hunder, fun hu => absurd hu hunder⟩ ?_
      exact fun hfile hnone => absurd ⟨hfile, hnone⟩ hnew
  · refine fileProtected_below hdirs hmap hmap' hlook hflags (hcase.resolve_right ?_) after
    rintro ⟨-, hk⟩
    have hzero := (hboot hk).1
    subst hzero
    exact hdirs (hok'.lookup_inj hlook t'.lookup_root)

/-- Every regular file of the archive is flagged and refused if its path lies under
`boot/`, and not flagged otherwise. -/
def BootModule.ProtectsBoot (m : BootModule) : Prop :=
  ∀ fuel es, m.readArchive fuel = some es → ∀ before e after, es = before ++ e :: after →
    e.IsFile → FileProtected before e after

/-- `initrd_init` protects the files under `boot/`, and no other, if and only if the entry
of `boot` stands in front of what leads to them. -/
theorem initrd_boot_iff (m : BootModule) :
    m.ProtectsBoot ↔ ∀ fuel es, m.readArchive fuel = some es → ∀ before e after,
      es = before ++ e :: after → e.IsFile → BootFirst before e after := by
  constructor
  · intro h fuel es hread before e after hes he
    exact (fileProtected_iff he).mp (h fuel es hread before e after hes he)
  · intro h fuel es hread before e after hes he
    exact (fileProtected_iff he).mpr (h fuel es hread before e after hes he)

/-- An archive with one header, of the empty regular file `boot/k`. -/
def lateModule : BootModule where
  tarStart := 0x400000
  tarEnd := 0x400600
  mem a :=
    if a < 0xC0400006 then [98, 111, 111, 116, 47, 107].getD (a - 0xC0400000) 0
    else if a = 0xC040009C then 48
    else if 0xC0400101 ≤ a ∧ a < 0xC0400106 then
      [117, 115, 116, 97, 114].getD (a - 0xC0400101) 0
    else 0

/-- The file gets no flag when its directory is made on the way. -/
theorem initrd_boot_unprotected : ¬ ∀ m : BootModule, m.ProtectsBoot := by
  intro h
  let entry : TarEntry := ⟨[98, 111, 111, 116, 47, 107], 48, 0, 0xC0400200⟩
  have hread : lateModule.readArchive 2 = some [entry] := by decide +kernel
  obtain ⟨node, hnode, hflag, -⟩ := h lateModule 2 [entry] hread [] entry [] rfl (by decide +kernel)
  have hmade : (mountAll [entry])[(mountAll [entry]).length - 1]? =
      some ⟨[107], fsFile, some 3, 0, some 0xC0400200⟩ := by decide +kernel
  have hsame := Option.some.inj (hnode.symm.trans hmade)
  subst hsame
  exact absurd (hflag.mpr (by decide +kernel)) (by decide)

end EnclaveOS
