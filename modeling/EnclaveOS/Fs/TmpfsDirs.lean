import EnclaveOS.Fs.VfsOpenSpec

/-!
# TmpfsDirs - creating and removing in a directory

The edits of the sibling lists: `vfs_add_child`, `tmpfs_create` and `tmpfs_unlink` on
the list of children that a directory has.
-/

namespace EnclaveOS

namespace VfsTreeState

/-- What a node is, apart from its place among its siblings and its children. -/
def VfsLinksSame (l l' : VfsLinks) : Prop :=
  l'.name = l.name ∧ l'.mountpointNode = l.mountpointNode ∧ l'.finddir = l.finddir ∧
    l'.tmpfsDir = l.tmpfsDir

/-- The links after `n` is put behind the children `l` of `parent`. -/
structure LinkedIn (s s' : VfsTreeState) (parent n : Ptr) (l : List Ptr) : Prop where
  same : ∀ m, VfsLinksSame (s.links m) (s'.links m)
  firstChild : ∀ m, (s'.links m).firstChild =
    if m = parent ∧ l = [] then some n else (s.links m).firstChild
  nextSibling : ∀ m, (s'.links m).nextSibling =
    if m = n then none else if l.getLast? = some m then some n else (s.links m).nextSibling

variable {s s' : VfsTreeState} {parent n : Ptr} {l : List Ptr}

/-- `vfs_add_child` on a node that is not in the list yet. -/
theorem vfsAddChild_spec (hl : s.Children parent l) (hn : n ∉ l) :
    ∃ s', s.vfsAddChild parent n = some s' ∧ s'.toVfsState = s.toVfsState ∧ s'.root = s.root ∧
      s'.fatNodes = s.fatNodes ∧ s'.fatDir = s.fatDir ∧ s.LinkedIn s' parent n l := by
  have hfirst : ((s.setLinks n { s.links n with nextSibling := none }).links parent).firstChild =
      (s.links parent).firstChild := by
    rw [setLinks_links, Function.update_apply]
    split_ifs with h
    · rw [h]
    · rfl
  have hchildren : (s.setLinks n { s.links n with nextSibling := none }).Children parent l := by
    unfold Children at hl ⊢
    rw [hfirst]
    apply hl.congr
    intro c hc
    have hne : c ≠ n := fun h => hn (h ▸ hc)
    rw [setLinks_links, Function.update_of_ne hne]
  unfold vfsAddChild
  dsimp only
  rw [hfirst]
  cases l with
  | nil =>
    have hnone : (s.links parent).firstChild = none := hl
    rw [hnone]
    refine ⟨_, rfl, rfl, rfl, rfl, rfl, ⟨fun m => ?_, fun m => ?_, fun m => ?_⟩⟩
    · simp only [setLinks_links, Function.update_apply, VfsLinksSame]
      split_ifs <;> simp_all
    · simp only [setLinks_links, Function.update_apply]
      split_ifs <;> simp_all
    · simp only [setLinks_links, Function.update_apply, List.getLast?_nil]
      split_ifs <;> simp_all
  | cons c cs =>
    have hsome : (s.links parent).firstChild = some c := hl.1
    have hlast : (c :: cs).getLast? = some ((c :: cs).getLast (by simp)) :=
      List.getLast?_eq_some_getLast (by simp)
    have hmem : (c :: cs).getLast (by simp) ≠ n := fun h => hn (h ▸ List.getLast_mem (by simp))
    generalize (c :: cs).getLast (by simp) = last at hlast hmem
    rw [hsome]
    dsimp only
    rw [children_eq_some.mpr hchildren]
    dsimp only [Option.bind_eq_bind, Option.bind_some]
    rw [hlast, Option.bind_some]
    refine ⟨_, rfl, rfl, rfl, rfl, rfl, ⟨fun m => ?_, fun m => ?_, fun m => ?_⟩⟩
    · simp only [setLinks_links, Function.update_apply, VfsLinksSame]
      split_ifs <;> simp_all
    · simp only [setLinks_links, Function.update_apply]
      split_ifs <;> simp_all
    · simp only [setLinks_links, Function.update_apply]
      split_ifs <;> simp_all

namespace LinkedIn

end LinkedIn

/-- The links `tmpfs_create` gives a new node. -/
def newLinks (name : List Nat) (mode : Nat) : VfsLinks where
  name := name.take (vfsMaxFilename - 1)
  firstChild := none
  nextSibling := none
  mountpointNode := none
  finddir := if mode &&& sIfdir ≠ 0 then some .generic else none
  tmpfsDir := mode &&& sIfdir ≠ 0

/-- `kmalloc` delivers the node and, unless it is a directory, the block for its data. -/
def NodeMemory (s : VfsTreeState) (mode : Nat) : Prop :=
  ∃ n, s.kmalloc.2 = some n ∧ (mode &&& sIfdir ≠ 0 ∨
    ∃ p, s.outcomes (s.mallocs + 1) = some p ∧ p ≠ n ∧ s.live p = false)

/-- Nothing that is in use has changed. -/
structure Unchanged (s s' : VfsTreeState) : Prop where
  objects : s'.toVfsState = s.toVfsState
  links : ∀ m, s.Node m → s'.links m = s.links m
  fatNodes : s'.fatNodes = s.fatNodes
  root : s'.root = s.root
  fatDir : s'.fatDir = s.fatDir

/-- A new node behind the children of a directory. -/
structure Created (s s' : VfsTreeState) (parent : Ptr) (l : List Ptr) (name : List Nat)
    (mode : Nat) (n : Ptr) : Prop where
  free : s.live n = false
  nodes : ∃ priv, s'.nodes = Function.update s.nodes n
    (some ⟨0, if mode &&& sIfdir ≠ 0 then fsDirectory else fsFile, .tmpfs, priv, 0, false⟩)
  status : s'.status = s.status
  fdTable : s'.fdTable = s.fdTable
  files : s'.files = s.files
  fileData : ∀ p, s.live p = true → s'.fileData p = s.fileData p
  fatNodes : s'.fatNodes = s.fatNodes
  root : s'.root = s.root
  fatDir : s'.fatDir = s.fatDir
  linkedIn : (s.setLinks n (newLinks name mode)).LinkedIn s' parent n l

/-- The children of other directories do not depend on the links of a node. -/
theorem Children.setLinks (hl : s.Children parent l) (hn : n ∉ l) (hne : n ≠ parent)
    (links : VfsLinks) : (s.setLinks n links).Children parent l := by
  unfold Children at hl ⊢
  rw [setLinks_links, Function.update_of_ne (Ne.symm hne)]
  apply hl.congr
  intro c hc
  have hcn : c ≠ n := fun h => hn (h ▸ hc)
  exact congrArg VfsLinks.nextSibling (Function.update_of_ne hcn ..)

theorem live_of_node (h : s.Node n) : s.live n = true := by
  unfold Node at h
  unfold live
  simp [h]

/-- A directory: one block, and the node is linked in. -/
theorem created_dir (hl : s.Children parent l) (hn : n ∉ l) (hne : n ≠ parent)
    (hfree : s.live n = false) (name : List Nat) {mode : Nat} (hdir : mode &&& sIfdir ≠ 0) :
    ∃ s', ((({ s with mallocs := s.mallocs + 1 } : VfsTreeState).setLinks n
          (newLinks name mode)).putVfsNode n
            (some ⟨0, fsDirectory, .tmpfs, none, 0, false⟩)).vfsAddChild parent n = some s' ∧
      s.Created s' parent l name mode n := by
  have hl' := hl.setLinks hn hne (newLinks name mode)
  obtain ⟨s', hadd, hobjects, hroot, hfat, hdisk, hlinked⟩ := vfsAddChild_spec
    (s := (({ s with mallocs := s.mallocs + 1 } : VfsTreeState).setLinks n
      (newLinks name mode)).putVfsNode n (some ⟨0, fsDirectory, .tmpfs, none, 0, false⟩)) hl' hn
  refine ⟨s', hadd, hfree, ⟨none, ?_⟩, ?_, ?_, ?_, fun p _ => ?_, hfat, hroot, hdisk,
    ⟨hlinked.same, hlinked.firstChild, hlinked.nextSibling⟩⟩
  · rw [hobjects, if_pos hdir]
    rfl
  · rw [hobjects]
    rfl
  · rw [hobjects]
    rfl
  · rw [hobjects]
    rfl
  · rw [hobjects]
    rfl

/-- A file: a second block, for its data. -/
theorem created_file (hl : s.Children parent l) (hn : n ∉ l) (hne : n ≠ parent)
    (hfree : s.live n = false) {fdata : Ptr} (hdata : s.live fdata = false) (name : List Nat)
    {mode : Nat} (hfile : ¬mode &&& sIfdir ≠ 0) (mallocs : Nat) :
    ∃ s', (({ (({ s with mallocs := mallocs } : VfsTreeState).setLinks n (newLinks name mode)) with
          fileData := Function.update s.fileData fdata (some ⟨none, 0, 0⟩) } :
            VfsTreeState).putVfsNode n
              (some ⟨0, fsFile, .tmpfs, some fdata, 0, false⟩)).vfsAddChild parent n = some s' ∧
      s.Created s' parent l name mode n := by
  have hl' := hl.setLinks hn hne (newLinks name mode)
  obtain ⟨s', hadd, hobjects, hroot, hfat, hdisk, hlinked⟩ := vfsAddChild_spec
    (s := ({ (({ s with mallocs := mallocs } : VfsTreeState).setLinks n (newLinks name mode)) with
      fileData := Function.update s.fileData fdata (some ⟨none, 0, 0⟩) } :
        VfsTreeState).putVfsNode n (some ⟨0, fsFile, .tmpfs, some fdata, 0, false⟩)) hl' hn
  refine ⟨s', hadd, hfree, ⟨some fdata, ?_⟩, ?_, ?_, ?_, fun p hp => ?_, hfat, hroot, hdisk,
    ⟨hlinked.same, hlinked.firstChild, hlinked.nextSibling⟩⟩
  · rw [hobjects, if_neg hfile]
    rfl
  · rw [hobjects]
    rfl
  · rw [hobjects]
    rfl
  · rw [hobjects]
    rfl
  · have hne : p ≠ fdata := by
      rintro rfl
      rw [hdata] at hp
      cases hp
    rw [hobjects]
    exact Function.update_of_ne hne ..

/-- A node put into free memory is all that is new in use. -/
theorem live_putVfsNode (s : VfsTreeState) (n p : Ptr) (node : VfsNode) :
    (s.putVfsNode n (some node)).live p = (s.live p || decide (p = n)) := by
  unfold live
  rw [putVfsNode_toVfsState, putVfsNode_fatNodes]
  unfold VfsState.setNode
  dsimp only
  rw [Function.update_apply]
  by_cases h : p = n
  · simp [h]
  · simp [h]

/-- The second block of a file: it is missing, and the node is given back, or the file is linked
in. -/
theorem tmpfsCreate_file (hl : s.Children parent l) (hn : n ∉ l) (hne : n ≠ parent)
    (name : List Nat) {mode : Nat} (hmalloc : s.kmalloc.2 = some n)
    (hfile : ¬mode &&& sIfdir ≠ 0) :
    (∃ s', s.tmpfsCreate parent name mode = some (s', none) ∧ ¬s.NodeMemory mode ∧
        s.Unchanged s') ∨
      ∃ s', s.tmpfsCreate parent name mode = some (s', some n) ∧ s.NodeMemory mode ∧
        s.Created s' parent l name mode n := by
  have hfree := (kmalloc_eq (Prod.ext rfl hmalloc)).2
  have hkmalloc : s.kmalloc = ({ s with mallocs := s.mallocs + 1 }, some n) := Prod.ext rfl hmalloc
  have hlinks : newLinks name mode = ⟨name.take (vfsMaxFilename - 1), none, none, none,
      if mode &&& sIfdir ≠ 0 then some .generic else none, mode &&& sIfdir ≠ 0⟩ := rfl
  unfold tmpfsCreate
  rw [hkmalloc]
  dsimp only
  rw [if_neg hfile, ← hlinks]
  generalize ht : (({ s with mallocs := s.mallocs + 1 } : VfsTreeState).setLinks n
    (newLinks name mode)).putVfsNode n (some ⟨0, fsFile, .tmpfs, none, 0, false⟩) = t
  have hlive : ∀ p, t.live p = (s.live p || decide (p = n)) := by
    intro p
    rw [← ht, live_putVfsNode]
    rfl
  have houtcome : t.kmalloc.2 = (s.outcomes (s.mallocs + 1)).filter fun p => !t.live p := by
    rw [← ht]
    rfl
  cases hdata : t.kmalloc with
  | mk t₁ fdata =>
    rw [hdata] at houtcome
    have ht₁ : t₁ = { t with mallocs := t.mallocs + 1 } := (congrArg Prod.fst hdata).symm
    have hnone : s.nodes n = none := not_node_of_not_live hfree
    cases fdata with
    | none =>
      left
      refine ⟨_, rfl, ?_, ?_⟩
      · rintro ⟨m, hm, hmem⟩
        obtain rfl := Option.some.inj (hmalloc.symm.trans hm)
        obtain ⟨p, hp, hpn, hpfree⟩ := hmem.resolve_left hfile
        have hfilter := (Option.filter_eq_none_iff.mp houtcome.symm) p hp
        rw [hlive] at hfilter
        simp [hpn, hpfree] at hfilter
      · refine ⟨?_, fun m hm => ?_, ?_, ?_, ?_⟩
        · rw [ht₁, ← ht]
          unfold putVfsNode VfsState.setNode
          dsimp only
          rw [Function.update_idem, setLinks_toVfsState, ← hnone, Function.update_eq_self]
        · have hmn : m ≠ n := by
            rintro rfl
            unfold Node at hm
            rw [hnone] at hm
            cases hm
          rw [ht₁, ← ht, putVfsNode_links]
          exact Function.update_of_ne hmn ..
        all_goals rw [ht₁, ← ht]; rfl
    | some fdata =>
      right
      obtain ⟨hp, hpfree⟩ := Option.filter_eq_some_iff.mp houtcome.symm
      rw [hlive] at hpfree
      have hparts : fdata ≠ n ∧ s.live fdata = false := by
        simpa [and_comm] using hpfree
      obtain ⟨s', hadd, hcreated⟩ := created_file hl hn hne hfree hparts.2 name hfile
        (s.mallocs + 2)
      refine ⟨s', ?_, ⟨n, hmalloc, Or.inr ⟨fdata, hp, hparts⟩⟩, hcreated⟩
      dsimp only
      rw [ht₁, ← ht]
      unfold putVfsNode VfsState.setNode at hadd ⊢
      dsimp only at hadd ⊢
      rw [Function.update_idem]
      simp only [setLinks_toVfsState] at hadd ⊢
      exact congrArg (fun r => Option.bind r fun s => some (s, some n)) hadd

/-- `tmpfs_create` fails and changes nothing, or adds one node. -/
theorem tmpfsCreate_spec (hl : s.Children parent l) (hnodes : ∀ c ∈ l, s.Node c)
    (hparent : s.Node parent) (name : List Nat) (mode : Nat) :
    (∃ s', s.tmpfsCreate parent name mode = some (s', none) ∧ ¬s.NodeMemory mode ∧
        s.Unchanged s') ∨
      ∃ s' n, s.tmpfsCreate parent name mode = some (s', some n) ∧ s.NodeMemory mode ∧
        s.Created s' parent l name mode n := by
  cases hmalloc : s.kmalloc.2 with
  | none =>
    left
    have hkmalloc : s.kmalloc = ({ s with mallocs := s.mallocs + 1 }, none) := Prod.ext rfl hmalloc
    unfold tmpfsCreate
    rw [hkmalloc]
    refine ⟨_, rfl, ?_, rfl, fun _ _ => rfl, rfl, rfl, rfl⟩
    rintro ⟨n, hn, -⟩
    rw [hmalloc] at hn
    cases hn
  | some n =>
    have hfree := (kmalloc_eq (Prod.ext rfl hmalloc)).2
    have hne : ∀ m, s.Node m → n ≠ m := by
      rintro m hm rfl
      rw [live_of_node hm] at hfree
      cases hfree
    have hn : n ∉ l := fun h => hne n (hnodes n h) rfl
    by_cases hdir : mode &&& sIfdir ≠ 0
    · right
      have hkmalloc : s.kmalloc = ({ s with mallocs := s.mallocs + 1 }, some n) :=
        Prod.ext rfl hmalloc
      have hlinks : newLinks name mode = ⟨name.take (vfsMaxFilename - 1), none, none, none,
          if mode &&& sIfdir ≠ 0 then some .generic else none, mode &&& sIfdir ≠ 0⟩ := rfl
      obtain ⟨s', hadd, hcreated⟩ := created_dir hl hn (hne parent hparent) hfree name hdir
      refine ⟨s', n, ?_, ⟨n, hmalloc, Or.inl hdir⟩, hcreated⟩
      unfold tmpfsCreate
      rw [hkmalloc]
      dsimp only
      rw [if_pos hdir, ← hlinks, hadd]
      rfl
    · obtain hfail | ⟨s', hmade⟩ :=
        tmpfsCreate_file hl hn (hne parent hparent) name hmalloc hdir
      · exact Or.inl hfail
      · exact Or.inr ⟨s', n, hmade⟩

end VfsTreeState

end EnclaveOS
