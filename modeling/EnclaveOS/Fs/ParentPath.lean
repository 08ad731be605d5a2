import EnclaveOS.Fs.VfsOpenSpec

/-!
# ParentPath - the directory of a path

The split of a path at its last slash, which `sys_open`, `sys_unlink` and
`sys_mkdir_handler` each make for themselves, and the directory it leads to.
-/

namespace EnclaveOS

open PathGraph

/-- A search downwards finds the largest hit. -/
theorem find?_range_reverse {p : Nat → Bool} {n i : Nat} :
    (List.range n).reverse.find? p = some i ↔ i < n ∧ p i ∧ ∀ j, i < j → j < n → p j = false := by
  induction n with
  | zero => simp
  | succ n ih =>
    rw [List.range_succ, List.reverse_append, List.reverse_singleton, List.singleton_append]
    by_cases hn : p n
    · rw [List.find?_cons_of_pos hn, Option.some.injEq]
      constructor
      · rintro rfl
        exact ⟨Nat.lt_succ_self _, hn, fun j hj hjn => absurd hjn (by omega)⟩
      · rintro ⟨hi, -, hlast⟩
        by_contra hne
        have hfalse := hlast n (by omega) (Nat.lt_succ_self _)
        rw [hn] at hfalse
        cases hfalse
    · rw [List.find?_cons_of_neg hn, ih]
      constructor
      · rintro ⟨hi, hpi, hlast⟩
        refine ⟨by omega, hpi, fun j hj hjn => ?_⟩
        by_cases hjn' : j = n
        · simpa [hjn'] using hn
        · exact hlast j hj (by omega)
      · rintro ⟨hi, hpi, hlast⟩
        have hne : i ≠ n := by
          rintro rfl
          exact hn hpi
        exact ⟨by omega, hpi, fun j hj hjn => hlast j hj (by omega)⟩

/-- The path is the parent's, a slash and a name. -/
theorem lastSlash_eq_some {path : List Nat} {i : Nat} (h : lastSlash path = some i) :
    i < path.length ∧ path = path.take i ++ slash :: path.drop (i + 1) ∧
      slash ∉ path.drop (i + 1) := by
  unfold lastSlash at h
  obtain ⟨hi, hslash, hlast⟩ := find?_range_reverse.mp h
  have hget : path[i] = slash := by
    simpa [hi] using hslash
  refine ⟨hi, ?_, ?_⟩
  · rw [← hget, List.cons_getElem_drop_succ, List.take_append_drop]
  · intro hmem
    obtain ⟨k, hk, heq⟩ := List.mem_iff_getElem.mp hmem
    rw [List.length_drop] at hk
    rw [List.getElem_drop] at heq
    have hfalse := hlast (i + 1 + k) (by omega) (by omega)
    rw [List.getElem?_eq_getElem (by omega), heq] at hfalse
    simp at hfalse

/-- The names on the way to the parent and behind its slash. -/
theorem parentPath_split {path : List Nat} {i : Nat} (h : lastSlash (slash :: path) = some i) :
    ∃ rest, parentPath (slash :: path) i = slash :: rest ∧
      (i = 0 ∧ rest = [] ∧ path = (slash :: path).drop (i + 1) ∨
        path = rest ++ slash :: (slash :: path).drop (i + 1)) := by
  obtain ⟨-, hsplit, -⟩ := lastSlash_eq_some h
  unfold parentPath
  cases i with
  | zero => exact ⟨[], rfl, Or.inl ⟨rfl, rfl, rfl⟩⟩
  | succ i =>
    refine ⟨path.take i, by simp, Or.inr ?_⟩
    simpa using hsplit

namespace VfsTreeState

variable {s : VfsTreeState} {path : List Nat} {i : Nat}

theorem Makes.append {left : Nat} {n : Ptr} {names : List (List Nat)} (h : s.Makes left n names)
    (more : List (List Nat)) : s.Makes left n (names ++ more) := by
  obtain ⟨pre, x, rest, k, d, rfl, hk, hwalk, hfound⟩ := h
  exact ⟨pre, x, rest ++ more, k, d, by simp, hk, hwalk, hfound⟩

/-- The way to the parent is part of the way. -/
theorem MakesNode.of_parentPath (hslash : lastSlash path = some i) (hhead : path.head? = some slash)
    (h : s.MakesNode (parentPath path i)) : s.MakesNode path := by
  obtain ⟨tail, rfl⟩ : ∃ tail, path = slash :: tail := by
    cases path with
    | nil => cases hhead
    | cons c tail => exact ⟨tail, by rw [Option.some.inj hhead]⟩
  obtain ⟨rest, hparent, hmakes⟩ := h
  obtain ⟨rest', hrest', hcases⟩ := parentPath_split hslash
  obtain rfl : rest = rest' := by
    rw [hrest'] at hparent
    exact (List.cons.inj hparent).2.symm
  refine ⟨tail, rfl, ?_⟩
  obtain ⟨-, rfl, -⟩ | hsplit := hcases
  · exact absurd hmakes (s.not_makes_nil _ _)
  · rw [hsplit, pieces_append_sep]
    exact hmakes.append _

/-- The directory in which a path is created: one of tmpfs, which the path up to its last slash
leads to. -/
def CreatesIn (s : VfsTreeState) (path : List Nat) (d : Ptr) : Prop :=
  path.head? = some slash ∧ ∃ i m k node, lastSlash path = some i ∧
    s.pathNode (parentPath path i) = some m ∧ s.graph.Chase m k d ∧ s.nodes d = some node ∧
    node.flags &&& fsDirectory ≠ 0 ∧ (s.links d).tmpfsDir = true

/-- The unbounded loop ends where the mounts lead. -/
theorem followMounts_eq {fuel : Nat} {m : Ptr} {r : Option Ptr}
    (h : s.followMounts fuel m = some r) :
    (∀ d, r = some d → ∃ k, s.graph.Chase m k d) ∧
      (r = none → ∀ k d, ¬s.graph.Chase m k d) := by
  induction fuel generalizing m with
  | zero => cases h
  | succ fuel ih =>
    rw [followMounts, Option.bind_eq_bind, Option.bind_eq_some_iff] at h
    obtain ⟨node, hnode, h⟩ := h
    have hmount : s.graph.isMount m = decide (node.flags &&& fsMountpoint ≠ 0) := by
      simp [VfsTreeState.graph, hnode]
    by_cases hflag : node.flags &&& fsMountpoint ≠ 0
    · rw [if_pos hflag] at h
      rw [decide_eq_true hflag] at hmount
      cases htarget : (s.links m).mountpointNode with
      | none =>
        rw [htarget] at h
        cases h
        constructor
        · intro d hd
          cases hd
        · intro _ k d hchase
          cases hchase with
          | here hnot =>
            rw [hmount] at hnot
            cases hnot
          | hop _ hm _ =>
            have hsome : (s.links m).mountpointNode = some _ := hm
            rw [htarget] at hsome
            cases hsome
      | some target =>
        rw [htarget] at h
        obtain ⟨hfound, hlost⟩ := ih h
        constructor
        · intro d hd
          obtain ⟨k, hchase⟩ := hfound d hd
          exact ⟨k + 1, .hop hmount htarget hchase⟩
        · intro hr k d hchase
          cases hchase with
          | here hnot =>
            rw [hmount] at hnot
            cases hnot
          | hop _ hm hb =>
            have hsome : (s.links m).mountpointNode = some _ := hm
            rw [htarget] at hsome
            cases hsome
            exact hlost hr _ _ hb
    · rw [if_neg hflag] at h
      cases h
      rw [decide_eq_false hflag] at hmount
      constructor
      · intro d hd
        cases hd
        exact ⟨0, .here hmount⟩
      · intro hr
        cases hr

end VfsTreeState

/-- The search for the directory of a path that leads to no entry of a disk. -/
theorem TreeOk.openParent_cases {s : VfsTreeState} {tree : Ptr → Prop} (h : TreeOk s tree)
    {path : List Nat} (hno : ¬s.MakesNode path) {r : VfsTreeState × Except Int (Ptr × List Nat)}
    (hr : s.openParent path = some r) :
    (∃ e, r = (s, .error e) ∧ e < 0 ∧ ∀ d, ¬s.CreatesIn path d) ∨
      ∃ d i, r = (s, .ok (d, (path.drop (i + 1)).take 255)) ∧ tree d ∧ lastSlash path = some i ∧
        s.CreatesIn path d := by
  have hentry : -vfsENoEnt < 0 := by decide
  have hacces : -vfsEAcces < 0 := by decide
  unfold VfsTreeState.openParent at hr
  by_cases hbad : path = [] ∨ path.head? ≠ some slash
  · rw [if_pos hbad] at hr
    cases hr
    refine Or.inl ⟨_, rfl, hentry, fun d hd => ?_⟩
    rcases hbad with rfl | hhead
    · cases hd.1
    · exact hhead hd.1
  rw [if_neg hbad] at hr
  obtain ⟨-, hhead⟩ := not_or.mp hbad
  have hhead := not_not.mp hhead
  cases hslash : lastSlash path with
  | none =>
    rw [hslash] at hr
    cases hr
    refine Or.inl ⟨_, rfl, hentry, fun d hd => ?_⟩
    obtain ⟨-, i, -, -, -, hi, -⟩ := hd
    rw [hslash] at hi
    cases hi
  | some i =>
    rw [hslash] at hr
    dsimp only at hr
    by_cases hlong : 256 ≤ i
    · rw [if_pos hlong] at hr
      cases hr
    have hfind := h.findnode_eq fun hmakes => hno (hmakes.of_parentPath hslash hhead)
    rw [if_neg hlong, hfind, Option.bind_eq_bind, Option.bind_some] at hr
    dsimp only at hr
    cases hm : s.pathNode (parentPath path i) with
    | none =>
      rw [hm] at hr
      cases hr
      refine Or.inl ⟨_, rfl, hentry, fun d hd => ?_⟩
      obtain ⟨-, j, m, -, -, hj, hm', -⟩ := hd
      obtain rfl := Option.some.inj (hslash.symm.trans hj)
      rw [hm] at hm'
      cases hm'
    | some m =>
      rw [hm] at hr
      dsimp only [Option.bind_eq_bind] at hr
      obtain ⟨parent, hfollow, hr⟩ := Option.bind_eq_some_iff.mp hr
      obtain ⟨hfound, hlost⟩ := VfsTreeState.followMounts_eq hfollow
      cases parent with
      | none =>
        cases hr
        refine Or.inl ⟨_, rfl, hentry, fun d hd => ?_⟩
        obtain ⟨-, j, m', k, -, hj, hm', hchase, -⟩ := hd
        obtain rfl := Option.some.inj (hslash.symm.trans hj)
        obtain rfl := Option.some.inj (hm.symm.trans hm')
        exact hlost rfl k d hchase
      | some d =>
        dsimp only at hr
        obtain ⟨k, hchase⟩ := hfound d rfl
        obtain ⟨node, hnode, hr⟩ := Option.bind_eq_some_iff.mp hr
        have hother : ∀ e, s.CreatesIn path e →
            node.flags &&& fsDirectory ≠ 0 ∧ (s.links d).tmpfsDir = true := by
          intro e he
          obtain ⟨-, j, m', k', node', hj, hm', hchase', hnode', hdir, htmpfs⟩ := he
          obtain rfl := Option.some.inj (hslash.symm.trans hj)
          obtain rfl := Option.some.inj (hm.symm.trans hm')
          obtain ⟨-, rfl⟩ := hchase.unique hchase'
          obtain rfl := Option.some.inj (hnode.symm.trans hnode')
          exact ⟨hdir, htmpfs⟩
        by_cases hdir : node.flags &&& fsDirectory = 0
        · rw [if_pos hdir] at hr
          cases hr
          exact Or.inl ⟨_, rfl, hacces, fun e he => (hother e he).1 hdir⟩
        rw [if_neg hdir] at hr
        by_cases htmpfs : (s.links d).tmpfsDir = true
        · rw [if_neg (by simp [htmpfs])] at hr
          cases hr
          exact Or.inr ⟨d, i, rfl, h.chase_mem (h.pathNode_mem hm) hchase, rfl, hhead, i, m, k,
            node, hslash, hm, hchase, hnode, hdir, htmpfs⟩
        · rw [if_pos (by simp [htmpfs])] at hr
          cases hr
          exact Or.inl ⟨_, rfl, hacces, fun e he => htmpfs (hother e he).2⟩

end EnclaveOS
